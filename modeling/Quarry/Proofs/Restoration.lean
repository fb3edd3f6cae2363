import Quarry.Proofs.Columns
/-!
The projection of an expression through a new select loses nothing: with the declared columns put
back, the expression is as it was. It also declares nothing twice and nothing in vain.
-/
namespace Quarry.Binding

variable {label : String} {sources : List String} {columns : List (String × Expr)}
variable {e e' : Expr} {nested : Bool}

/-- The nodes outside of the results that become columns of their own. -/
def exposed : Expr → Bool → List Expr :=
  Expr.fold fun e parts nested =>
    if !nested && isComputed e then [] else e :: parts.flatMap (· (nested || isProjection e))

/-- The topmost results outside of every projection, from left to right. -/
def hoisted : Expr → List Expr :=
  Expr.fold fun e parts =>
    if isComputed e then [e] else if isProjection e then [] else parts.flatten

/-- What a column of the select at `label` stands for. -/
def restore (label : String) (columns : List (String × Expr)) : Expr → Option Expr
  | .column c => if c.label = label then columns[c.ordinal]?.map (·.2) else none
  | _ => none

/-- The columns that belong to none of the labels. -/
def columnsApart (labels : List String) (es : List Expr) : List Column :=
  es.filterMap fun
    | .column c => if c.label ∈ labels then none else some c
    | _ => none

/-- Nothing of `e` is lost where `e'` reads it through the columns of the select at `label`. -/
structure Lossless (e : Expr) (label : String) (sources : List String) (e' : Expr)
    (columns : List (String × Expr)) : Prop where
  restored : e'.rewrite (restore label columns) = e
  /-- Every column of the select is read by its name, and none is declared in vain. -/
  named : ∀ c, .column c ∈ e'.nodes → c.label = label →
    columns[c.ordinal]?.map (·.1) = some c.name
  read : ∀ i < columns.length, ∃ c, .column c ∈ e'.nodes ∧ c.label = label ∧ c.ordinal = i
  names : (columns.map (·.1)).Nodup
  /-- Of the columns of the sources none stays, and each is declared once. -/
  moved : ∀ c, .column c ∈ e'.nodes → c.label ∉ sources
  once : ∀ c, (columns.map (·.2)).count (.column c) =
    if c.label ∈ sources ∧ .column c ∈ exposed e false then 1 else 0
  others : columnsApart (label :: sources) e'.nodes =
    columnsApart (label :: sources) (exposed e false)
  /-- Results are declared one by one, but those of a projection stay in it. -/
  results : (columns.map (·.2)).filter isComputed = hoisted e
  cleared : hoisted e' = []

/-! What is declared -/

theorem exposed_eq (e : Expr) (nested : Bool) :
    exposed e nested =
      if !nested && isComputed e then []
      else e :: e.children.flatMap (exposed · (nested || isProjection e)) := by
  rw [exposed, Expr.fold_eq]
  simp only [List.flatMap_map]

theorem hoisted_eq (e : Expr) :
    hoisted e =
      if isComputed e then [e] else if isProjection e then [] else e.children.flatMap hoisted := by
  rw [hoisted, Expr.fold_eq, List.flatMap_def]

theorem filter_foldl_declareOnce (xs parts : List Expr) :
    (xs.foldl declareOnce parts).filter isComputed =
      parts.filter isComputed ++ xs.filter isComputed := by
  induction xs generalizing parts with
  | nil => simp
  | cons x xs ih =>
      rw [List.foldl_cons, ih]
      by_cases hx : isComputed x <;> by_cases hmem : x ∈ parts <;> simp [declareOnce, hx, hmem]

/-- A column is declared once if it is taken out at all. -/
theorem count_foldl_declareOnce (c : Column) (xs parts : List Expr) :
    (xs.foldl declareOnce parts).count (.column c) =
      if .column c ∈ parts then parts.count (.column c)
      else if .column c ∈ xs then 1 else 0 := by
  induction xs generalizing parts with
  | nil => simp [List.count_eq_zero]
  | cons x xs ih =>
      rw [List.foldl_cons, ih]
      by_cases hx : x = .column c
      · subst hx
        by_cases hmem : Expr.column c ∈ parts <;> simp [declareOnce, isComputed, hmem,
          List.count_append, List.count_eq_zero.mpr]
      · have hx' : Expr.column c ≠ x := Ne.symm hx
        have hcount : (declareOnce parts x).count (.column c) = parts.count (.column c) := by
          rw [declareOnce]
          split
          next => rfl
          next => simp [List.count_append, hx]
        have hmem : Expr.column c ∈ declareOnce parts x ↔ .column c ∈ parts := by
          rw [declareOnce]
          split <;> simp [hx']
        simp [hcount, hmem, hx']

theorem column_mem_taken (c : Column) :
    .column c ∈ taken sources e nested ↔ c.label ∈ sources ∧ .column c ∈ exposed e nested := by
  induction e using Expr.children_induction generalizing nested with
  | step e ih =>
      rw [taken_eq, exposed_eq]
      cases ht : takes sources nested e with
      | true =>
          rcases takes_cases ht with ⟨c', rfl, hc'⟩ | ⟨rfl, he⟩
          · have hiff : c = c' ↔ c.label ∈ sources ∧ c = c' := ⟨fun h => ⟨h ▸ hc', h⟩, And.right⟩
            simpa [isComputed, Expr.children] using hiff
          · have hne : .column c ≠ e := by
              rintro rfl
              cases he
            simp [he, hne]
      | false =>
          have hne : c.label ∈ sources → .column c ≠ e := by
            rintro hc rfl
            simp [takes, hc] at ht
          rw [if_neg Bool.false_ne_true, stays_of_takes ht, if_neg Bool.false_ne_true,
            List.mem_flatMap, List.mem_cons, List.mem_flatMap]
          constructor
          · rintro ⟨x, hx, hc⟩
            obtain ⟨hl, hc⟩ := (ih x hx).mp hc
            exact ⟨hl, .inr ⟨x, hx, hc⟩⟩
          · rintro ⟨hl, hc | ⟨x, hx, hc⟩⟩
            · exact absurd hc (hne hl)
            · exact ⟨x, hx, (ih x hx).mpr ⟨hl, hc⟩⟩

theorem filter_taken (e : Expr) (nested : Bool) :
    (taken sources e nested).filter isComputed = if nested then [] else hoisted e := by
  induction e using Expr.children_induction generalizing nested with
  | step e ih =>
      rw [taken_eq]
      cases ht : takes sources nested e with
      | true =>
          rcases takes_cases ht with ⟨c, rfl, -⟩ | ⟨rfl, he⟩
          · cases nested <;> rfl
          · rw [hoisted_eq, if_pos he, if_pos rfl, List.filter_singleton, he]
            rfl
      | false =>
          rw [if_neg Bool.false_ne_true, List.filter_flatMap,
            List.flatMap_congr fun c hc => ih c hc (nested || isProjection e)]
          cases nested with
          | true => simp
          | false =>
              have hstays : isComputed e = false := stays_of_takes ht
              rw [hoisted_eq, hstays]
              cases isProjection e <;> simp

/-! What is read -/

theorem restore_eq_none {R : Expr → Expr → Prop} (h : Expr.Alike R e e')
    (hlabel : ∀ c, e = .column c → c.label ≠ label) : restore label columns e' = none := by
  cases h with
  | leaf hleaf =>
      cases e with
      | column c => exact if_neg (hlabel c rfl)
      | _ => rfl
  | _ => rfl

theorem Moved.restored (h : Moved label sources columns e nested e')
    (hlabel : ∀ c, .column c ∈ e.nodes → c.label ≠ label) :
    e'.rewrite (restore label columns) = e := by
  induction e using Expr.children_induction generalizing nested e' with
  | step e ih =>
      cases ht : takes sources nested e with
      | true =>
          obtain ⟨i, name, hi, rfl⟩ := (moved_iff_reads ht).mp h
          refine Expr.rewrite_some ?_
          simp [restore, hi]
      | false =>
          obtain ⟨cs, hcs, rfl⟩ := (moved_iff_children ht).mp h
          have halike : Expr.Alike (fun c c' => c'.rewrite (restore label columns) = c) e
              (e.withChildren cs) := by
            refine Expr.alike_withChildren ?_
            refine ((List.forall₂_and_left _ _).mpr ⟨fun c hc => hc, hcs⟩).imp ?_
            rintro c c' ⟨hc, hmoved⟩
            exact ih c hc hmoved fun x hx => hlabel x (Expr.mem_nodes_of_child hc hx)
          have hself : ∀ c, e = .column c → c.label ≠ label :=
            fun c hc => hlabel c (hc ▸ e.self_mem_nodes)
          exact Expr.rewrite_eq_of_alike (restore_eq_none halike hself) halike

/-- Every column that is read is one of the select or a column that was left alone. -/
theorem Moved.column_cases {c : Column} (h : Moved label sources columns e nested e')
    (hc : .column c ∈ e'.nodes) :
    c.label = label ∧ columns[c.ordinal]?.map (·.1) = some c.name ∨
      c.label ∉ sources ∧ .column c ∈ e.nodes := by
  induction h using Moved.induction with
  | taken e nested e' ht h =>
      obtain ⟨i, name, hi, rfl⟩ := h
      rw [Expr.mem_nodes] at hc
      rcases hc with hc | ⟨c', hc', -⟩
      · cases hc
        exact .inl ⟨rfl, by rw [hi, Option.map_some]⟩
      · cases hc'
  | kept e nested e' ht _ h =>
      rcases Expr.mem_nodes.mp hc with hc | ⟨x', hx', hc⟩
      · subst hc
        cases h with
        | leaf _ => exact .inr ⟨by simpa [takes] using ht, Expr.self_mem_nodes _⟩
      · obtain ⟨x, hx, hmoved, ih⟩ := exists_of_mem_right h.children hx'
        exact (ih hc).imp_right fun hx' => ⟨hx'.1, Expr.mem_nodes_of_child hx hx'.2⟩

theorem columnsApart_append (labels : List String) (xs ys : List Expr) :
    columnsApart labels (xs ++ ys) = columnsApart labels xs ++ columnsApart labels ys :=
  List.filterMap_append

theorem columnsApart_cons (labels : List String) (x : Expr) (xs : List Expr) :
    columnsApart labels (x :: xs) = columnsApart labels [x] ++ columnsApart labels xs :=
  columnsApart_append labels [x] xs

theorem columnsApart_flatMap {labels : List String} {cs cs' : List Expr}
    (h : List.Forall₂
      (fun c c' => columnsApart labels c'.nodes = columnsApart labels (exposed c nested)) cs cs') :
    columnsApart labels (cs'.flatMap Expr.nodes) =
      columnsApart labels (cs.flatMap (exposed · nested)) := by
  induction h with
  | nil => rfl
  | cons hc _ ih =>
      rw [List.flatMap_cons, List.flatMap_cons, columnsApart_append, columnsApart_append, hc, ih]

theorem Moved.columnsApart_eq (h : Moved label sources columns e nested e') :
    columnsApart (label :: sources) e'.nodes =
      columnsApart (label :: sources) (exposed e nested) := by
  induction h using Moved.induction with
  | taken e nested e' ht h =>
      obtain ⟨i, name, -, rfl⟩ := h
      rw [exposed_eq]
      cases e <;> simp_all [takes, isComputed, columnsApart, Expr.nodes_eq, Expr.children]
  | kept e nested e' ht _ h =>
      have hnode : columnsApart (label :: sources) [e'] = columnsApart (label :: sources) [e] := by
        cases h <;> rfl
      rw [exposed_eq, stays_of_takes ht, if_neg Bool.false_ne_true, Expr.nodes_eq, columnsApart_cons,
        columnsApart_cons _ e, hnode]
      exact congrArg _ (columnsApart_flatMap (h.children.imp fun c c' hc => hc.2))

theorem Moved.hoisted_eq_nil (h : Moved label sources columns e nested e') (hn : nested = false) :
    hoisted e' = [] := by
  induction h using Moved.induction with
  | taken e nested e' ht h =>
      obtain ⟨i, name, -, rfl⟩ := h
      rfl
  | kept e nested e' ht _ h =>
      subst hn
      have hform : isComputed e' = isComputed e ∧ isProjection e' = isProjection e := by
        cases h <;> exact ⟨rfl, rfl⟩
      have hstays : isComputed e = false := stays_of_takes ht
      rw [hoisted_eq, hform.1, hform.2, hstays, if_neg Bool.false_ne_true]
      split
      next => rfl
      next hp =>
        rw [List.flatMap_eq_nil_iff]
        intro c' hc'
        obtain ⟨c, -, -, ih⟩ := exists_of_mem_right h.children hc'
        exact ih (by simp [hp])

/-- A fresh label reads all that an expression needs of the sources, and nothing is lost on the way:
put back, the declared columns give the expression as it was. -/
theorem projectColumns_lossless (e : Expr) (label : String) (sources : List String)
    (hsources : label ∉ sources) (hlabel : ∀ c, .column c ∈ e.nodes → c.label ≠ label) :
    Lossless e label sources (projectColumns e label sources).1
      (projectColumns e label sources).2 := by
  obtain ⟨hnames, hnew, hread, hmoved⟩ := projectColumns_projected e label sources
  constructor
  case restored => exact hmoved.restored hlabel
  case named =>
    intro c hc hl
    rcases hmoved.column_cases hc with ⟨-, hname⟩ | ⟨-, hmem⟩
    · exact hname
    · exact absurd hl (hlabel c hmem)
  case read => exact hread
  case names => exact hnames
  case moved =>
    intro c hc
    rcases hmoved.column_cases hc with ⟨hl, -⟩ | ⟨hl, -⟩
    · exact hl ▸ hsources
    · exact hl
  case once =>
    intro c
    rw [hnew, count_foldl_declareOnce, if_neg List.not_mem_nil]
    simp only [column_mem_taken]
  case others => exact hmoved.columnsApart_eq
  case results =>
    rw [hnew, filter_foldl_declareOnce, filter_taken]
    rfl
  case cleared => exact hmoved.hoisted_eq_nil rfl

/-- The first character of a column, as a result of the query text. -/
def initialOf (c : Column) : Expr :=
  .function ⟨.charAt, .substr, none,
    [.column c, .constant (.int32 1) .int32, .constant (.int32 1) .int32], .char⟩

/-- The row of an owner and an item with the initials of all items of that owner. -/
def initialsRow (id item initial : Expr) : Expr :=
  .construct .null [("id", id), ("item", item), ("owner", id), ("initial", initial),
    ("initials", .projection ⟨⟨"t2", [("name", .column ⟨"t3", "name", 1, .text⟩)],
      .table ⟨"Items", "t3", "Item"⟩,
      some (.binary (.comparison .eq) (.column ⟨"t3", "owner", 2, .int32⟩) id)⟩,
      initialOf ⟨"t2", "name", 0, .text⟩, .list⟩)]

/-- Two columns of one name, one of them read three times, and two results, one in a projection. -/
theorem projectColumns_lossless_of_initialsRow :
    let e := initialsRow (.column ⟨"t0", "id", 0, .int32⟩) (.column ⟨"t1", "id", 0, .int32⟩)
      (initialOf ⟨"t0", "name", 1, .text⟩)
    let e' := initialsRow (.column ⟨"t4", "id", 0, .int32⟩) (.column ⟨"t4", "id1", 1, .int32⟩)
      (.column ⟨"t4", "c0", 2, .char⟩)
    let columns := [("id", .column ⟨"t0", "id", 0, .int32⟩),
      ("id1", .column ⟨"t1", "id", 0, .int32⟩),
      ("c0", initialOf ⟨"t0", "name", 1, .text⟩)]
    projectColumns e "t4" ["t0", "t1"] = (e', columns) ∧
      Lossless e "t4" ["t0", "t1"] e' columns := by
  intro e e' columns
  have hproject : projectColumns e "t4" ["t0", "t1"] = (e', columns) := by cbv
  have hnodes : ∀ x ∈ e.nodes, (match x with
      | .column c => c.label != "t4"
      | _ => true) = true := by decide
  have hlabel : ∀ c, .column c ∈ e.nodes → c.label ≠ "t4" := fun c hc => bne_iff_ne.mp (hnodes _ hc)
  have hlossless := projectColumns_lossless e "t4" ["t0", "t1"] (by decide) hlabel
  rw [hproject] at hlossless
  exact ⟨hproject, hlossless⟩

end Quarry.Binding
