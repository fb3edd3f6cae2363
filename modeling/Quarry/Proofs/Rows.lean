import Quarry.Evaluation
import Quarry.Proofs.Resolution
import Quarry.RowSource
/-!
What a bound query means over a database: the rows of its selects and the values of its scalars,
where rows are in sight under their labels. The rows of a select inhabit the types of its columns.
-/
namespace Quarry

/-- The character at a position counted from one; where the text or the position is null there is
none. -/
def Value.charFrom (string position : Value) : Except Error Value :=
  if string.isNull || position.isNull then .ok .null
  else do
    let k ← position.asInt64
    let s ← string.asText
    match if k.toInt < 1 then none else s.toList[k.toInt.toNat - 1]? with
    | some c => return .char c
    | none => throw (.characterIndexOutOfRange (Decimal.ofInt k.toInt) s)

/-- What an existence test answers, by whether nothing was found. -/
def Function.answer : Function → Bool → Except Error Value
  | .existence, isEmpty => .ok (.boolean !isEmpty)
  | .absence, isEmpty => .ok (.boolean isEmpty)
  | .substr, _ => .error (.required "existence test")

/-- A row of a table with the names of its members. -/
def Table.record (t : Table) (row : Row) : Record := (t.members.map Member.name).zip row

/-- The rows of each entity, and those that literal query text asks for. -/
structure Database where
  catalog : Catalog
  rows : String → List Row
  literal : String → List Record

/-- Every value of a row inhabits the type of its member. -/
def Database.IsTyped (db : Database) : Prop :=
  ∀ t ∈ db.catalog.tables, ∀ row ∈ db.rows t.entity,
    List.Forall₂ (fun m v => Value.Inhabits v m.type) t.members row

instance (db : Database) : Decidable db.IsTyped :=
  inferInstanceAs (Decidable (∀ t ∈ db.catalog.tables, ∀ row ∈ db.rows t.entity,
    List.Forall₂ (fun m v => Value.Inhabits v m.type) t.members row))

/-- The rows in sight, each under its label; of two under one label the first is seen. -/
abbrev Frame := List (String × Record)

/-- How a column finds its value in a row. -/
abbrev Finder := Record → Column → Option Value

namespace Finder

def byName : Finder := fun row c => row.lookup c.name

def byOrdinal : Finder := fun row c => (row[c.ordinal]?).map (·.2)

end Finder

namespace Database

variable (db : Database) (find : Finder)

mutual

/-- The value of a scalar where the rows of `env` are in sight; a nested projection is a list. -/
def scalar (env : Frame) : Expr → Except Error Value
  | .constant v _ => .ok v
  | .column c =>
    match (env.lookup c.label).bind (find · c) with
    | some v => .ok v
    | none => .error (.required "column")
  | .member target name => do (← scalar env target).member name
  | .unary op e => do Value.applyUnary op (← scalar env e)
  | .binary op l r => do
    let left ← scalar env l
    let right ← scalar env r
    Value.applyBinary op left right
  | .construct _ members => do return .record (← fields env members)
  | .function f => functionValue env f
  | .subquery f sql => do
    let found ← keepM (fun row => meets (("", row) :: env) f) (db.literal sql)
    f.function.answer found.isEmpty
  | .projection p => do return .list (← values env p)
  | _ => .error (.required "value")

def fields (env : Frame) : List (String × Expr) → Except Error Record
  | [] => .ok []
  | (name, e) :: rest => do
    let v ← scalar env e
    return (name, v) :: (← fields env rest)

def scalars (env : Frame) : List Expr → Except Error (List Value)
  | [] => .ok []
  | e :: rest => do
    let v ← scalar env e
    return v :: (← scalars env rest)

/-- One character of a text. The position is evaluated also where the text is null. -/
def functionValue (env : Frame) : FunctionCall Expr → Except Error Value
  | ⟨_, .substr, some string, args, _⟩ => do
    let s ← scalar env string
    match ← scalars env args with
    | [position, .int32 1] => s.charFrom position
    | _ => .error (.required "position")
  | _ => .error (.required "text")

/-- Whether all predicates of an existence test hold. -/
def meets (env : Frame) : FunctionCall Expr → Except Error Bool
  | ⟨_, _, _, args, _⟩ => do return (← scalars env args).all (· = .boolean true)

/-- Without a condition everything holds. -/
def holds (env : Frame) : Option Expr → Except Error Bool
  | none => .ok true
  | some e => do return (← scalar env e) = .boolean true

/-- The rows of a source, each under the labels that the source offers. -/
def sourceRows (env : Frame) : Expr → Except Error (List Frame)
  | .table t => do
    let table ← db.catalog.table t.entity
    return (db.rows t.entity).map fun row => [(t.label, table.record row)]
  | .select s => do return (← selectRows env s).map fun row => [(s.label, row)]
  | .join .inner l r condition => do
    let left ← sourceRows env l
    let right ← sourceRows env r
    keepM (fun frame => holds (frame ++ env) condition)
      (left.flatMap fun a => right.map fun b => a ++ b)
  | _ => .error (.required "rows")

def selectRows (env : Frame) : Select Expr → Except Error (List Record)
  | ⟨_, columns, source, filter⟩ => do
    let frames ← sourceRows env source
    let frames ← keepM (fun frame => holds (frame ++ env) filter) frames
    frames.mapM fun frame => fields (frame ++ env) columns

/-- The values that a projection builds from the rows of its select. -/
def values (env : Frame) : Projection Expr → Except Error (List Value)
  | ⟨source, projector, _⟩ => do
    let rows ← selectRows env source
    rows.mapM fun row => scalar ((source.label, row) :: env) projector

end

/-! Success, part by part -/

variable {db find} {env : Frame}

theorem fields_eq_ok {ms : List (String × Expr)} {row : Record} :
    db.fields find env ms = .ok row ↔
      List.Forall₂ (fun m f => m.1 = f.1 ∧ db.scalar find env m.2 = .ok f.2) ms row := by
  induction ms generalizing row with
  | nil => simp [fields, eq_comm]
  | cons m ms ih =>
      obtain ⟨name, e⟩ := m
      simp only [fields, bind_eq_ok, pure_eq_ok, ih]
      constructor
      · rintro ⟨v, hv, rest, hrest, rfl⟩
        exact .cons ⟨rfl, hv⟩ hrest
      · rintro (_ | ⟨⟨rfl, hv⟩, hrest⟩)
        exact ⟨_, hv, _, hrest, rfl⟩

theorem map_fst_fields {ms : List (String × Expr)} {row : Record}
    (h : db.fields find env ms = .ok row) : row.map (·.1) = ms.map (·.1) := by
  rw [← List.forall₂_eq_eq_eq, List.forall₂_map_left_iff, List.forall₂_map_right_iff]
  exact ((fields_eq_ok.mp h).imp fun _ _ hm => hm.1.symm).flip

theorem selectRows_eq_ok {s : Select Expr} {rows : List Record} :
    db.selectRows find env s = .ok rows ↔
      ∃ frames, db.sourceRows find env s.source = .ok frames ∧
        ∃ kept, keepM (fun frame => db.holds find (frame ++ env) s.filter) frames = .ok kept ∧
          List.Forall₂ (fun frame row => db.fields find (frame ++ env) s.columns = .ok row)
            kept rows := by
  obtain ⟨label, columns, source, filter⟩ := s
  simp only [selectRows, bind_eq_ok, mapM_eq_ok]

end Database

theorem Value.charFrom_inhabits {s k v : Value} (h : s.charFrom k = .ok v) : v.Inhabits .char := by
  unfold charFrom at h
  split at h
  · exact Except.ok.inj h ▸ null_inhabits _
  · simp only [bind_eq_ok] at h
    obtain ⟨i, -, t, -, h⟩ := h
    split at h
    · exact Except.ok.inj h ▸ rfl
    · cases h

theorem Function.answer_inhabits {f : Function} {isEmpty : Bool} {v : Value}
    (h : f.answer isEmpty = .ok v) : v.Inhabits .boolean := by
  cases f with
  | existence | absence => exact Except.ok.inj h ▸ rfl
  | substr => cases h

/-! Members -/

theorem Record.fst_extract (name : String) (fields : Record) :
    (extract name fields).map (·.1) = fields.lookup name := by
  induction fields with
  | nil => rfl
  | cons field fields ih =>
      obtain ⟨field, w⟩ := field
      rw [extract, List.lookup_cons]
      by_cases hname : field = name
      · rw [if_pos hname, beq_iff_eq.mpr hname.symm]
        rfl
      · rw [if_neg hname, beq_eq_false_iff_ne.mpr (Ne.symm hname), ← ih, Option.map_map]
        rfl

/-- Taking a member out of a built record is reading it. -/
theorem Materializer.takeMember_eq_ok {name : String} {w v : Value} :
    takeMember name w = .ok v ↔ w.member name = .ok v := by
  cases w with
  | record fields =>
      have hextract := Record.fst_extract name fields
      rw [takeMember, Value.member, Record.take]
      cases hfound : Record.extract name fields with
      | none =>
          rw [hfound] at hextract
          simp [← hextract]
      | some found =>
          rw [hfound] at hextract
          rw [← hextract]
          rfl
  | _ => rfl

/-! Typed rows -/

/-- A row has the columns of the signature, with values of their types. -/
def Signature.Types (signature : Signature) (row : Record) : Prop :=
  List.Forall₂ (fun s f => s.1 = f.1 ∧ f.2.Inhabits s.2) signature row

/-- A column that names the field at its ordinal finds that field. -/
def Finder.Finds (find : Finder) (row : Record) : Prop :=
  ∀ c x, row[c.ordinal]? = some (c.name, x) → find row c = some x

/-- Columns are found in all rows that a bound query can meet. -/
def Finder.Suits (find : Finder) (catalog : Catalog) : Prop :=
  ∀ row, (catalog.isDistinct → (row.map (·.1)).Nodup) → find.Finds row

theorem Finder.byOrdinal_suits (catalog : Catalog) : byOrdinal.Suits catalog := by
  intro row _ c x h
  rw [byOrdinal, h]
  rfl

theorem Finder.byName_finds {row : Record} (h : (row.map (·.1)).Nodup) : byName.Finds row :=
  fun _ _ hx => lookup_of_mem h (List.mem_of_getElem? hx)

theorem Finder.byName_suits {catalog : Catalog} (hd : catalog.isDistinct) :
    byName.Suits catalog := fun _ hnames => byName_finds (hnames hd)

/-- Every row in sight has the columns of its label, and they are found in it. -/
def Frame.IsTyped (find : Finder) (G : Nat → Signature) (env : Frame) : Prop :=
  ∀ x ∈ env, x.1 = "" ∨ ∃ i, x.1 = Binding.label i ∧ (G i).Types x.2 ∧ find.Finds x.2

namespace Frame.IsTyped

variable {find : Finder} {G : Nat → Signature} {env inner : Frame}

theorem nil : IsTyped find G [] := fun _ hx => nomatch hx

theorem append (hinner : inner.IsTyped find G) (henv : env.IsTyped find G) :
    IsTyped find G (inner ++ env) := by
  intro x hx
  rcases List.mem_append.mp hx with hx | hx
  · exact hinner x hx
  · exact henv x hx

theorem lookup {n : Nat} {c : Column} {row : Record} (henv : env.IsTyped find G)
    (hc : Binding.KnownColumn G n c) (hlabel : c.label ≠ "") (hrow : env.lookup c.label = some row) :
    ∃ x, row[c.ordinal]? = some (c.name, x) ∧ find row c = some x ∧ x.Inhabits c.type := by
  rcases hc with hempty | ⟨j, -, hj, hsignature⟩
  · exact absurd hempty hlabel
  rcases henv _ (mem_of_lookup hrow) with hempty | ⟨i, hi, htypes, hfinds⟩
  · exact absurd hempty hlabel
  obtain rfl : i = j := Binding.label_injective (hi.symm.trans hj)
  obtain ⟨⟨name, x⟩, hx, rfl, hinhabits⟩ := exists_getElem?_left htypes hsignature
  exact ⟨x, hx, hfinds c x hx, hinhabits⟩

end Frame.IsTyped

namespace Database

section Typed

variable {db : Database} {find : Finder} {K : Value → DataType → Prop} {G : Nat → Signature}
variable {n : Nat} {env : Frame}

theorem functionValue_inhabits {f : FunctionCall Expr} {v : Value}
    (h : db.functionValue find env f = .ok v) : v.Inhabits .char := by
  obtain ⟨method, function, receiver, args, type⟩ := f
  cases function with
  | existence | absence => cases h
  | substr =>
      cases receiver with
      | none => cases h
      | some string =>
          simp only [functionValue, bind_eq_ok] at h
          obtain ⟨s, -, vs, -, h⟩ := h
          split at h
          · exact Value.charFrom_inhabits h
          · cases h

/-- What a select declares its columns by has values of its static type. -/
theorem scalar_inhabits {e : Expr} {v : Value} (ho : Binding.isOutput e)
    (hnode : Binding.NodeOk K db.catalog G n e) (henv : env.IsTyped find G)
    (h : db.scalar find env e = .ok v) : v.Inhabits (e.staticType?.getD .null) := by
  cases e with
  | column c =>
      simp only [Binding.isOutput, ne_eq, decide_eq_true_eq] at ho
      simp only [scalar] at h
      split at h
      next x hx =>
        obtain ⟨row, hrow, hfound⟩ := Option.bind_eq_some_iff.mp hx
        obtain ⟨y, -, hy, hinhabits⟩ := henv.lookup hnode ho hrow
        rw [hy, Option.some.injEq] at hfound
        exact Except.ok.inj h ▸ hfound ▸ hinhabits
      next => cases h
  | function f =>
      simp only [scalar] at h
      rw [Expr.staticType?, hnode.2.2.2.2, Option.getD_some]
      exact functionValue_inhabits h
  | subquery f sql =>
      simp only [scalar, bind_eq_ok] at h
      obtain ⟨found, -, h⟩ := h
      exact Function.answer_inhabits h
  | _ => cases ho

theorem fields_typed {s : Select Expr} {row : Record} (hfind : find.Suits db.catalog)
    (hs : Binding.KnownSelect db.catalog G n s)
    (hnodes : ∀ column ∈ s.columns, Binding.NodeOk K db.catalog G n column.2)
    (henv : env.IsTyped find G) (h : db.fields find env s.columns = .ok row) :
    ∃ i, s.label = Binding.label i ∧ (G i).Types row ∧ find.Finds row := by
  obtain ⟨⟨i, -, hlabel, hsignature⟩, houtputs, hnames⟩ := hs
  refine ⟨i, hlabel, ?_, hfind row fun hd => map_fst_fields h ▸ hnames hd⟩
  rw [← hsignature, Select.signature, Signature.Types, List.forall₂_map_left_iff]
  refine ((List.forall₂_and_left _ _).mpr ⟨fun m hm => hm, fields_eq_ok.mp h⟩).imp ?_
  rintro m f ⟨hm, hname, hvalue⟩
  exact ⟨hname, scalar_inhabits (houtputs m hm) (hnodes m hm) henv hvalue⟩

theorem record_typed {t : Table} {row : Row}
    (h : List.Forall₂ (fun m v => Value.Inhabits v m.type) t.members row) :
    t.signature.Types (t.record row) := by
  rw [Table.signature, Table.record, Signature.Types]
  generalize t.members = members at h
  induction h with
  | nil => exact .nil
  | cons hv _ ih => exact .cons ⟨rfl, hv⟩ ih

theorem map_fst_record {t : Table} {row : Row}
    (h : List.Forall₂ (fun m v => Value.Inhabits v m.type) t.members row) :
    (t.record row).map (·.1) = t.members.map Member.name := by
  rw [Table.record, List.map_fst_zip]
  rw [List.length_map, h.length_eq]

/-- The rows of a source whose nodes are those of a bound query are typed. -/
theorem sourceRows_typed {e : Expr} {frames : List Frame} (hdb : db.IsTyped)
    (hfind : find.Suits db.catalog) (hnodes : ∀ x ∈ e.nodes, Binding.NodeOk K db.catalog G n x)
    (henv : env.IsTyped find G) (h : db.sourceRows find env e = .ok frames) :
    ∀ frame ∈ frames, frame.IsTyped find G := by
  induction e using Expr.children_induction generalizing env frames with
  | step e ih =>
      obtain ⟨hnode, hbelow⟩ := Expr.forall_mem_nodes.mp hnodes
      cases e with
      | table t =>
          simp only [sourceRows, bind_eq_ok, pure_eq_ok] at h
          obtain ⟨table, htable, rfl⟩ := h
          obtain ⟨hmem, hentity⟩ := Binding.table_mem htable
          obtain ⟨i, -, hlabel, table', htable', hG⟩ := hnode
          obtain rfl : table = table' := Except.ok.inj (htable.symm.trans htable')
          intro frame hframe
          obtain ⟨row, hrow, rfl⟩ := List.mem_map.mp hframe
          have hmembers := hdb table hmem row (hentity ▸ hrow)
          intro x hx
          obtain rfl := List.mem_singleton.mp hx
          refine .inr ⟨i, hlabel, hG ▸ record_typed hmembers, hfind _ fun hd => ?_⟩
          rw [map_fst_record hmembers]
          simpa using List.all_eq_true.mp hd table hmem
      | select s =>
          simp only [sourceRows, bind_eq_ok, pure_eq_ok] at h
          obtain ⟨rows, hrows, rfl⟩ := h
          obtain ⟨frames, hframes, kept, hkept, hfields⟩ := selectRows_eq_ok.mp hrows
          have hsource : s.source ∈ (Expr.select s).children := by simp [Expr.children, Select.children]
          have htyped := ih s.source hsource (hbelow s.source hsource) henv hframes
          have hcolumns : ∀ column ∈ s.columns, Binding.NodeOk K db.catalog G n column.2 := by
            intro column hcolumn
            have hchild : column.2 ∈ (Expr.select s).children :=
              List.mem_append_left _ (List.mem_map_of_mem hcolumn)
            exact hbelow column.2 hchild _ (Expr.self_mem_nodes _)
          intro frame hframe
          obtain ⟨row, hrow, rfl⟩ := List.mem_map.mp hframe
          obtain ⟨frame, hframe, hrow⟩ := exists_of_mem_right hfields hrow
          intro x hx
          obtain rfl := List.mem_singleton.mp hx
          exact .inr (fields_typed hfind hnode hcolumns
            ((htyped frame (mem_of_keepM hkept hframe)).append henv) hrow)
      | join kind l r condition =>
          obtain ⟨rfl, -⟩ := hnode
          simp only [sourceRows, bind_eq_ok] at h
          obtain ⟨left, hleft, right, hright, h⟩ := h
          have hl := ih l List.mem_cons_self (hbelow l List.mem_cons_self) henv hleft
          have hr := ih r (by simp [Expr.children]) (hbelow r (by simp [Expr.children])) henv hright
          intro frame hframe
          obtain ⟨a, ha, hpair⟩ := List.mem_flatMap.mp (mem_of_keepM h hframe)
          obtain ⟨b, hb, rfl⟩ := List.mem_map.mp hpair
          exact (hl a ha).append (hr b hb)
      | _ => cases h

theorem selectRows_typed {s : Select Expr} {rows : List Record} (hdb : db.IsTyped)
    (hfind : find.Suits db.catalog)
    (hnodes : ∀ x ∈ (Expr.select s).nodes, Binding.NodeOk K db.catalog G n x)
    (henv : env.IsTyped find G) (h : db.selectRows find env s = .ok rows) :
    ∀ row ∈ rows, Frame.IsTyped find G [(s.label, row)] := by
  intro row hrow
  refine sourceRows_typed hdb hfind hnodes henv ?_ _
    (List.mem_map_of_mem (f := fun row => [(s.label, row)]) hrow)
  simp only [sourceRows, h]
  rfl

end Typed

end Database

/-- Two owners and their items. -/
def Binding.owned : Database where
  catalog := ownership
  rows
    | "Owner" => [[.int32 1, .text "Ada"], [.int32 2, .text "Bo"]]
    | "Item" => [[.int32 1, .int32 10], [.int32 2, .int32 20], [.int32 1, .int32 30]]
    | _ => []
  literal _ := []

end Quarry
