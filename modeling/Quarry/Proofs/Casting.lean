import Quarry.Proofs.Folding
/-!
What casts do. A cast lands in the values of its type and keeps them, whatever is nested in records
and lists. The natural type of a value need not be one of its types, because a list takes it from
its first element and a record looks a field up by the first of its name: a captured value survives
folding exactly if its parts have these types.
-/
namespace Quarry

namespace Value

/-! Induction -/

/-- What holds of the simple values, and of a record or a list whenever it holds of its parts, holds
of every value. -/
theorem parts_induction {P : Value → Prop} (simple : ∀ v, v.isSimple → P v)
    (record : ∀ fields, (∀ field ∈ fields, P field.2) → P (.record fields))
    (list : ∀ values, (∀ v ∈ values, P v) → P (.list values)) (v : Value) : P v :=
  match v with
  | .record fields => record fields fun field h =>
      have : sizeOf field.2 < sizeOf (Value.record fields) := by
        have hfield := List.sizeOf_lt_of_mem h
        obtain ⟨name, v⟩ := field
        simp only [Prod.mk.sizeOf_spec] at hfield
        simp only [Value.record.sizeOf_spec]
        omega
      parts_induction simple record list field.2
  | .list values => list values fun v h =>
      have : sizeOf v < sizeOf (Value.list values) := by
        have hv := List.sizeOf_lt_of_mem h
        simp only [Value.list.sizeOf_spec]
        omega
      parts_induction simple record list v
  | .null | .boolean _ | .int32 _ | .int64 _ | .float _ | .char _ | .text _ => simple _ rfl
termination_by sizeOf v
decreasing_by all_goals assumption

/-! The values of a type -/

/-- The values of a type. Null is of every type, and every value is of the untyped one. A record is
of a record type if each field is of the first type of its name; fields that no type names may hold
anything. -/
inductive IsOf : Value → DataType → Prop
  | null (t : DataType) : IsOf .null t
  | untyped (v : Value) : IsOf v .null
  | boolean (b : Bool) : IsOf (.boolean b) .boolean
  | int32 (n : Int32) : IsOf (.int32 n) .int32
  | int64 (n : Int64) : IsOf (.int64 n) .int64
  | float (x : Binary64) : IsOf (.float x) .float64
  | char (c : Char) : IsOf (.char c) .char
  | text (s : String) : IsOf (.text s) .text
  | entity (fields : Record) (name : String) : IsOf (.record fields) (.entity name)
  | record {fields : Record} {types : List (String × DataType)}
      (h : ∀ field ∈ fields, ∀ t, types.lookup field.1 = some t → IsOf field.2 t) :
      IsOf (.record fields) (.record types)
  | list {values : List Value} {t : DataType} (h : ∀ v ∈ values, IsOf v t) :
      IsOf (.list values) (.list t)
  | query {values : List Value} {t : DataType} (h : ∀ v ∈ values, IsOf v t) :
      IsOf (.list values) (.query t)

theorem isOf_dataType_of_isSimple {v : Value} (h : v.isSimple) : v.IsOf v.dataType := by
  cases v with
  | null => exact .null _
  | boolean b => exact .boolean b
  | int32 n => exact .int32 n
  | int64 n => exact .int64 n
  | float x => exact .float x
  | char c => exact .char c
  | text s => exact .text s
  | record | list => cases h

theorem IsSimpleOf.isOf {v : Value} {t : DataType} (h : v.IsSimpleOf t) : v.IsOf t := by
  obtain ⟨hsimple, rfl | rfl⟩ := h
  · exact .untyped v
  · exact isOf_dataType_of_isSimple hsimple

/-! Casts of records and lists -/

/-- The cast of a field to the type of its name, if there is one. -/
def castTo? (v : Value) : Option DataType → Except Error Value
  | some t => v.cast t
  | none => .ok v

variable {types : List (String × DataType)} {fields fields' : Record} {values values' : List Value}
variable {v w : Value} {t : DataType}

theorem castFields_cons (field : String × Value) (rest : Record) :
    castFields types (field :: rest) = (do
      let v ← field.2.castTo? (types.lookup field.1)
      let rest ← castFields types rest
      return (field.1, v) :: rest) := by
  rw [castFields]
  cases types.lookup field.1 <;> rfl

theorem castFields_eq_ok : castFields types fields = .ok fields' ↔
    List.Forall₂ (fun field field' => field.1 = field'.1 ∧
      field.2.castTo? (types.lookup field.1) = .ok field'.2) fields fields' := by
  induction fields generalizing fields' with
  | nil => cases fields' <;> simp [castFields]
  | cons field rest ih =>
      simp only [castFields_cons, bind_eq_ok, pure_eq_ok, ih]
      constructor
      · rintro ⟨v', hv', rest', hrest', rfl⟩
        exact .cons ⟨rfl, hv'⟩ hrest'
      · rintro (_ | @⟨_, ⟨_, v'⟩, _, rest', ⟨rfl, hv'⟩, hrest'⟩)
        exact ⟨v', hv', rest', hrest', rfl⟩

theorem castList_eq_mapM (t : DataType) (values : List Value) :
    castList t values = values.mapM (·.cast t) := by
  induction values with
  | nil => rfl
  | cons v values ih => rw [castList, List.mapM_cons, ih]

theorem castList_eq_ok : castList t values = .ok values' ↔
    List.Forall₂ (fun v v' => v.cast t = .ok v') values values' := by
  rw [castList_eq_mapM, mapM_eq_ok]

theorem castList_eq_self : castList t values = .ok values ↔ ∀ v ∈ values, v.cast t = .ok v := by
  rw [castList_eq_ok, List.forall₂_same]

/-- What a cast makes of a record. -/
theorem cast_record_cases (h : (record fields).cast t = .ok w) :
    w = .record fields ∧ t.isOpen ∨
      ∃ types fields', t = .record types ∧ w = .record fields' ∧
        castFields types fields = .ok fields' := by
  cases t with
  | null | entity =>
      obtain rfl := Except.ok.inj h
      exact .inl ⟨rfl, rfl⟩
  | record types =>
      rw [cast] at h
      obtain ⟨fields', hfields', rfl⟩ := map_eq_ok.mp h
      exact .inr ⟨types, fields', rfl, rfl, hfields'⟩
  | _ => cases h

/-- What a cast makes of a list. -/
theorem cast_list_cases (h : (list values).cast t = .ok w) :
    w = .list values ∧ t = .null ∨
      ∃ element values', (t = .list element ∨ t = .query element) ∧ w = .list values' ∧
        castList element values = .ok values' := by
  cases t with
  | null =>
      obtain rfl := Except.ok.inj h
      exact .inl ⟨rfl, rfl⟩
  | list element | query element =>
      rw [cast] at h
      obtain ⟨values', hvalues', rfl⟩ := map_eq_ok.mp h
      exact .inr ⟨element, values', by simp, rfl, hvalues'⟩
  | _ => cases h

/-! Landing in the type -/

/-- A cast gives a value of its type. -/
theorem cast_isOf (h : v.cast t = .ok w) : w.IsOf t := by
  induction v using parts_induction generalizing t w with
  | simple v hs =>
      rcases cast_isSimpleOf hs h with ⟨rfl, -⟩ | hw
      · exact .null t
      · exact hw.isOf
  | record fields ih =>
      rcases cast_record_cases h with ⟨rfl, hopen⟩ | ⟨types, fields', rfl, rfl, hfields⟩
      · cases t with
        | null => exact .untyped _
        | entity name => exact .entity fields name
        | _ => cases hopen
      · refine .record fun field' hfield' t ht => ?_
        obtain ⟨field, hfield, hname, hcast⟩ :=
          exists_of_mem_right (castFields_eq_ok.mp hfields) hfield'
        rw [hname, ht] at hcast
        exact ih field hfield hcast
  | list values ih =>
      rcases cast_list_cases h with ⟨rfl, rfl⟩ | ⟨element, values', ht, rfl, hvalues⟩
      · exact .untyped _
      · have hall : ∀ v' ∈ values', v'.IsOf element := by
          intro v' hv'
          obtain ⟨v, hv, hcast⟩ := exists_of_mem_right (castList_eq_ok.mp hvalues) hv'
          exact ih v hv hcast
        rcases ht with rfl | rfl
        · exact .list hall
        · exact .query hall

/-- A cast keeps the values of its type. -/
theorem IsOf.inhabits (h : v.IsOf t) : v.Inhabits t := by
  induction h with
  | null t => exact null_inhabits t
  | untyped v => exact inhabits_null v
  | boolean | int32 | int64 | float | char | text => exact inhabits_dataType rfl
  | entity fields name => exact record_inhabits_open rfl fields
  | @record fields types _ ih =>
      have hfields : castFields types fields = .ok fields := castFields_eq_self.mpr ih
      simp only [Inhabits, cast, hfields, Except.map]
  | @list values t _ ih | @query values t _ ih =>
      have hvalues : castList t values = .ok values := castList_eq_self.mpr ih
      simp only [Inhabits, cast, hvalues, Except.map]

theorem isOf_iff_cast : v.IsOf t ↔ v.cast t = .ok v := ⟨IsOf.inhabits, cast_isOf⟩

instance (v : Value) (t : DataType) : Decidable (v.IsOf t) :=
  decidable_of_iff (v.Inhabits t) isOf_iff_cast.symm

/-! The outline of a value -/

mutual

/-- The records with the names of their fields and the lists with their lengths, one inside the
other; null stands for every simple value. -/
def outline : Value → Value
  | .record fields => .record (outlineFields fields)
  | .list values => .list (outlineList values)
  | _ => .null

def outlineFields : List (String × Value) → List (String × Value)
  | [] => []
  | (name, v) :: rest => (name, outline v) :: outlineFields rest

def outlineList : List Value → List Value
  | [] => []
  | v :: rest => outline v :: outlineList rest

end

theorem outlineFields_eq (fields : Record) :
    outlineFields fields = fields.map fun field => (field.1, field.2.outline) := by
  induction fields with
  | nil => rfl
  | cons field rest ih => rw [outlineFields, ih, List.map_cons]

theorem outlineList_eq (values : List Value) : outlineList values = values.map outline := by
  induction values with
  | nil => rfl
  | cons v rest ih => rw [outlineList, ih, List.map_cons]

theorem outline_of_isSimple (h : v.isSimple) : v.outline = .null := by
  cases v with
  | record | list => cases h
  | _ => rfl

/-- A cast changes simple values only. -/
theorem outline_cast (h : v.cast t = .ok w) : v.outline = w.outline := by
  induction v using parts_induction generalizing t w with
  | simple v hs => rw [outline_of_isSimple hs, outline_of_isSimple (cast_isSimple hs h)]
  | record fields ih =>
      rcases cast_record_cases h with ⟨rfl, -⟩ | ⟨types, fields', -, rfl, hfields⟩
      · rfl
      · simp only [outline, outlineFields_eq, record.injEq]
        rw [← List.forall₂_eq_eq_eq, List.forall₂_map_left_iff, List.forall₂_map_right_iff]
        refine ((List.forall₂_and_left _ _).mpr
          ⟨fun _ hfield => hfield, castFields_eq_ok.mp hfields⟩).imp ?_
        rintro field field' ⟨hfield, hname, hcast⟩
        cases hlookup : types.lookup field.1 with
        | none =>
            rw [hlookup] at hcast
            rw [hname, Except.ok.inj hcast]
        | some t =>
            rw [hlookup] at hcast
            rw [hname, ih field hfield hcast]
  | list values ih =>
      rcases cast_list_cases h with ⟨rfl, -⟩ | ⟨element, values', -, rfl, hvalues⟩
      · rfl
      · simp only [outline, outlineList_eq, list.injEq]
        rw [← List.forall₂_eq_eq_eq, List.forall₂_map_left_iff, List.forall₂_map_right_iff]
        refine ((List.forall₂_and_left _ _).mpr
          ⟨fun _ hv => hv, castList_eq_ok.mp hvalues⟩).imp ?_
        rintro v v' ⟨hv, hcast⟩
        exact ih v hv hcast

/-- Casts land in their type and are the identity on it: a cast that succeeds gives a value of the
type, the values of a type are those that the cast to it keeps, and so a second cast changes
nothing. Records keep the names of their fields in order, and lists their lengths, at every depth. -/
theorem cast_lands (v : Value) (t : DataType) :
    (∀ w, v.cast t = .ok w → w.IsOf t ∧ w.cast t = .ok w ∧ v.outline = w.outline) ∧
      (v.IsOf t ↔ v.cast t = .ok v) := by
  refine ⟨fun w h => ⟨cast_isOf h, ?_, outline_cast h⟩, isOf_iff_cast⟩
  exact (cast_isOf h).inhabits

/-- Both fields of one name are cast to the first type of that name, a field without a type is kept,
and the elements of a list are cast one by one. -/
theorem cast_lands_of_repeatedName :
    let v : Value := .record [("a", .text " 7 "), ("b", .char 'x'), ("a", .boolean true)]
    let w : Value := .record [("a", .int32 7), ("b", .char 'x'), ("a", .int32 1)]
    let t : DataType := .query (.record [("a", .int32), ("a", .text)])
    (Value.list [v, .null]).cast t = .ok (.list [w, .null]) ∧ (Value.list [w, .null]).IsOf t ∧
      (Value.list [w, .null]).cast t = .ok (.list [w, .null]) ∧
      ¬ (Value.list [v, .null]).IsOf t := by
  intro v w t
  have hcast : (Value.list [v, .null]).cast t = .ok (.list [w, .null]) := by cbv
  obtain ⟨hlands, hkeeps⟩ := cast_lands (.list [v, .null]) t
  obtain ⟨hof, hagain, -⟩ := hlands _ hcast
  refine ⟨hcast, hof, hagain, fun h => ?_⟩
  have hsame : Value.list [w, .null] = .list [v, .null] :=
    Except.ok.inj (hcast.symm.trans (hkeeps.mp h))
  revert hsame
  decide

/-! Natural types -/

theorem list_isOf_list : (list values).IsOf (.list t) ↔ ∀ v ∈ values, v.IsOf t := by
  constructor
  · intro h
    cases h with
    | list h => exact h
  · exact .list

theorem record_isOf_record : (record fields).IsOf (.record types) ↔
    ∀ field ∈ fields, ∀ t, types.lookup field.1 = some t → field.2.IsOf t := by
  constructor
  · intro h
    cases h with
    | record h => exact h
  · exact .record

/-- The elements of a list are of the natural type of the first, and the fields of a record are of
that of the first field of their name. -/
def IsCoherent : Value → Prop
  | .record fields => ∀ field ∈ fields, ∀ first, fields.lookup field.1 = some first →
      field.2.IsOf first.dataType
  | .list values => ∀ first ∈ values.head?, ∀ v ∈ values, v.IsOf first.dataType
  | _ => True

/-- The coherent values are those that are of their natural type. -/
theorem isOf_dataType_iff (v : Value) : v.IsOf v.dataType ↔ v.IsCoherent := by
  cases v with
  | record fields =>
      rw [dataType, record_isOf_record, IsCoherent]
      simp only [lookup_fieldTypes, Option.map_eq_some_iff, forall_exists_index, and_imp,
        forall_apply_eq_imp_iff₂]
  | list values =>
      cases values with
      | nil => simp [dataType, list_isOf_list, IsCoherent]
      | cons first rest => simp [dataType, list_isOf_list, IsCoherent]
  | _ => exact iff_of_true (isOf_dataType_of_isSimple rfl) trivial

/-- Records of distinct names and lists whose elements have one natural type, at every depth; null
may stand anywhere. -/
inductive IsRegular : Value → Prop
  | simple {v : Value} (h : v.isSimple) : IsRegular v
  | record {fields : Record} (hnames : (fields.map (·.1)).Nodup)
      (h : ∀ field ∈ fields, IsRegular field.2) : IsRegular (.record fields)
  | list {values : List Value} {t : DataType} (htype : ∀ v ∈ values, v = .null ∨ v.dataType = t)
      (h : ∀ v ∈ values, IsRegular v) : IsRegular (.list values)

theorem IsRegular.isCoherent (h : v.IsRegular) : v.IsCoherent := by
  induction h with
  | simple h => exact (isOf_dataType_iff _).mp (isOf_dataType_of_isSimple h)
  | record hnames _ ih =>
      refine (isOf_dataType_iff _).mp (cast_isOf (record_inhabits_dataType hnames ?_))
      exact fun field hfield => ((isOf_dataType_iff _).mpr (ih field hfield)).inhabits
  | @list values t htype _ ih =>
      intro first hfirst v hv
      rcases htype v hv with rfl | hvtype
      · exact .null _
      · rcases htype first (List.mem_of_mem_head? hfirst) with rfl | hftype
        · exact .untyped v
        · rw [hftype, ← hvtype]
          exact (isOf_dataType_iff v).mpr (ih v hv)

/-! Failures -/

/-- Succeeds, or fails because there is no conversion. -/
def Converts {α : Type} (x : Except Error α) : Prop :=
  Yields (·.kind = .conversion) x fun _ => True

theorem Converts.kind {α : Type} {x : Except Error α} {err : Error} (h : Converts x)
    (hx : x = .error err) : err.kind = .conversion := by
  rw [hx] at h
  exact h

theorem narrow_converts (n : Int64) : Converts (narrow n) := by
  unfold narrow
  split
  · trivial
  · split <;> rfl

theorem castFloat_converts (x : Binary64) (t : DataType) : Converts (castFloat x t) := by
  unfold castFloat
  repeat' split
  all_goals trivial

theorem castText_converts (s : String) (t : DataType) : Converts (castText s t) := by
  unfold castText
  split
  · trivial
  · rfl

theorem castFields_converts (h : ∀ field ∈ fields, ∀ t, Converts (field.2.cast t)) :
    Converts (castFields types fields) := by
  induction fields with
  | nil => trivial
  | cons field rest ih =>
      have hrest := ih fun field hfield => h field (List.mem_cons_of_mem _ hfield)
      have hfield : Converts (field.2.castTo? (types.lookup field.1)) := by
        cases types.lookup field.1 with
        | none => trivial
        | some t => exact h field List.mem_cons_self t
      rw [castFields_cons]
      exact hfield.bind fun _ _ => hrest.bind fun _ _ => trivial

theorem castList_converts (h : ∀ v ∈ values, ∀ t, Converts (v.cast t)) :
    Converts (castList t values) := by
  induction values with
  | nil => trivial
  | cons v values ih =>
      have hrest := ih fun v hv => h v (List.mem_cons_of_mem _ hv)
      rw [castList]
      exact (h v List.mem_cons_self t).bind fun _ _ => hrest.bind fun _ _ => trivial

/-- A cast that fails does so because there is no conversion. -/
theorem cast_converts (v : Value) (t : DataType) : Converts (v.cast t) := by
  induction v using parts_induction generalizing t with
  | simple v hs =>
      cases v with
      | null => trivial
      | boolean | int32 | char => cases t <;> trivial
      | int64 n =>
          cases t <;> first | trivial | exact (narrow_converts n).map fun _ _ => trivial
      | float x => exact castFloat_converts x t
      | text s => exact castText_converts s t
      | record | list => cases hs
  | record fields ih =>
      cases t with
      | null | entity => trivial
      | record types => exact (castFields_converts ih).map fun _ _ => trivial
      | _ => rfl
  | list values ih =>
      cases t with
      | null => trivial
      | list element | query element => exact (castList_converts ih).map fun _ _ => trivial
      | _ => rfl

end Value

/-! Captured values -/

namespace Expr

variable (name : String) (v : Value)

theorem foldLocal_captured :
    (captured name v).foldLocal = (v.cast v.dataType).map (constant · v.dataType) := by
  have hall : (captured name v).nodes.all isLocal = true := rfl
  rw [foldLocal, foldWith_eq, if_pos hall]
  change (do return constant (← v.cast v.dataType) v.dataType) = _
  cases v.cast v.dataType <;> rfl

/-- What folding makes of a captured value. It becomes a constant that keeps the value exactly if
the value is coherent, as every regular one is. Any other value is refused or becomes another value
of its natural type, with the same records and lists. -/
theorem captured_survives_iff (name : String) (v : Value) :
    (v.cast v.dataType = .ok v ↔ v.IsCoherent) ∧
      ((captured name v).foldLocal = .ok (.constant v v.dataType) ↔ v.IsCoherent) ∧
      (v.IsRegular → v.IsCoherent) ∧
      (¬ v.IsCoherent →
        (∃ err, (captured name v).foldLocal = .error err ∧ err.kind = .conversion) ∨
          ∃ w, w ≠ v ∧ (captured name v).foldLocal = .ok (.constant w v.dataType) ∧
            w.IsOf v.dataType ∧ v.outline = w.outline) := by
  have hcast : v.cast v.dataType = .ok v ↔ v.IsCoherent :=
    Value.isOf_iff_cast.symm.trans (Value.isOf_dataType_iff v)
  rw [foldLocal_captured]
  refine ⟨hcast, ?_, Value.IsRegular.isCoherent, fun hv => ?_⟩
  · rw [map_eq_ok, ← hcast]
    simp
  · cases h : v.cast v.dataType with
    | error err => exact .inl ⟨err, rfl, (Value.cast_converts v _).kind h⟩
    | ok w =>
        refine .inr ⟨w, ?_, rfl, Value.cast_isOf h, Value.outline_cast h⟩
        rintro rfl
        exact hv (hcast.mp h)

/-- Records in a list may lack a value, and what they hold survives. -/
theorem captured_survives_iff_of_points :
    let point (x : Value) : Value := .record [("x", x), ("tags", .list [.text "a", .null])]
    let points : Value := .list [point (.int32 1), .null, point (.int32 2)]
    points.IsRegular ∧
      (captured "points" points).foldLocal = .ok (.constant points points.dataType) := by
  intro point points
  have hpoint (n : Int32) : (point (.int32 n)).IsRegular := by
    have htags : (Value.list [.text "a", .null]).IsRegular :=
      .list (t := .text) (by simp [Value.dataType]) (by simpa using ⟨.simple rfl, .simple rfl⟩)
    exact .record (by simp) (by simpa using ⟨.simple rfl, htags⟩)
  have hpoints : points.IsRegular := by
    refine .list (t := (point (.int32 1)).dataType) ?_ ?_
    · simp [point, Value.dataType, Value.fieldTypes]
    · simpa using ⟨hpoint 1, .simple rfl, hpoint 2⟩
  obtain ⟨-, hfold, hregular, -⟩ := captured_survives_iff "points" points
  exact ⟨hpoints, hfold.mpr (hregular hpoints)⟩

/-- A list whose first element is narrower than the second is changed; a text after a number, and a
second field of a name with another type, are refused. -/
theorem captured_list_changes :
    (captured "k" (.list [.int32 1, .int64 2])).foldLocal =
        .ok (.constant (.list [.int32 1, .int32 2]) (.list .int32)) ∧
      (captured "k" (.list [.int32 1, .text "a"])).foldLocal =
        .error (.cannotConvert "a" "Int32") ∧
      (captured "k" (.record [("a", .int32 1), ("a", .text "b")])).foldLocal =
        .error (.cannotConvert "b" "Int32") := by
  simp only [foldLocal_captured]
  exact ⟨rfl, rfl, rfl⟩

end Expr

end Quarry
