import Quarry.Folding
import Quarry.Proofs.Outcome
import Quarry.Proofs.Traversal
/-!
Values of a type: a value inhabits a type if casting it there keeps it. What an expression
evaluates to inhabits its static type, so that no cast on the way changes it.
-/
namespace Quarry

namespace DataType

/-- The types that take a record as it is. -/
def isOpen : DataType → Bool
  | .null | .entity _ => true
  | _ => false

theorem isNumeric_of_promote? {s t u : DataType} (h : s.promote? t = some u) :
    s.isNumeric ∧ t.isNumeric := by
  unfold promote? at h
  split at h
  case h_10 => cases h
  all_goals exact ⟨rfl, rfl⟩

theorem not_isText_of_isNumeric {t : DataType} (h : t.isNumeric) : t.isText = false := by
  cases t <;> simp_all [isNumeric, isText]

end DataType

namespace Value

/-- A cast to the type keeps the value. -/
def Inhabits (v : Value) (t : DataType) : Prop := v.cast t = .ok v

instance (v : Value) (t : DataType) : Decidable (v.Inhabits t) :=
  match h : v.cast t with
  | .ok w => decidable_of_iff (w = v) ⟨fun e => e ▸ h, fun e => Except.ok.inj (h.symm.trans e)⟩
  | .error _ => .isFalse fun e => nomatch h.symm.trans e

/-- All values but records and lists. -/
def isSimple : Value → Bool
  | .record _ | .list _ => false
  | _ => true

theorem null_inhabits (t : DataType) : Value.null.Inhabits t := by
  simp [Inhabits, cast]

theorem inhabits_null (v : Value) : v.Inhabits .null := by
  cases v <;> simp [Inhabits, cast, castBoolean, castInt32, castInt64, castFloat, castChar,
    castText, parse?]

theorem record_inhabits_open {t : DataType} (h : t.isOpen) (fields : List (String × Value)) :
    (Value.record fields).Inhabits t := by
  cases t <;> simp_all [Inhabits, cast, DataType.isOpen]

/-! Casts of simple values -/

/-- A simple value of the type, or any simple value if the type is the untyped one. -/
def IsSimpleOf (v : Value) (t : DataType) : Prop := v.isSimple ∧ (t = .null ∨ v.dataType = t)

variable {t : DataType} {w : Value}

theorem castBoolean_isSimpleOf {b : Bool} (h : castBoolean b t = .ok w) : w.IsSimpleOf t := by
  cases t with
  | null =>
      cases h
      exact ⟨rfl, .inl rfl⟩
  | boolean | int32 | int64 | float64 | text =>
      cases h
      exact ⟨rfl, .inr rfl⟩
  | _ => cases h

theorem castInt32_isSimpleOf {n : Int32} (h : castInt32 n t = .ok w) : w.IsSimpleOf t := by
  cases t with
  | null =>
      cases h
      exact ⟨rfl, .inl rfl⟩
  | boolean | int32 | int64 | float64 | text =>
      cases h
      exact ⟨rfl, .inr rfl⟩
  | _ => cases h

theorem castInt64_isSimpleOf {n : Int64} (h : castInt64 n t = .ok w) : w.IsSimpleOf t := by
  cases t with
  | null =>
      cases h
      exact ⟨rfl, .inl rfl⟩
  | boolean | int64 | float64 | text =>
      cases h
      exact ⟨rfl, .inr rfl⟩
  | int32 =>
      obtain ⟨m, -, rfl⟩ := map_eq_ok.mp h
      exact ⟨rfl, .inr rfl⟩
  | _ => cases h

theorem castFloat_isSimpleOf {x : Binary64} (h : castFloat x t = .ok w) : w.IsSimpleOf t := by
  cases t with
  | null =>
      cases h
      exact ⟨rfl, .inl rfl⟩
  | boolean | float64 | text =>
      cases h
      exact ⟨rfl, .inr rfl⟩
  | int32 =>
      rw [castFloat] at h
      split at h
      next => cases h
      next =>
        split at h
        next =>
          cases h
          exact ⟨rfl, .inr rfl⟩
        next => cases h
  | int64 =>
      rw [castFloat] at h
      split at h
      next => cases h
      next =>
        cases h
        exact ⟨rfl, .inr rfl⟩
  | _ => cases h

theorem castChar_isSimpleOf {c : Char} (h : castChar c t = .ok w) : w.IsSimpleOf t := by
  cases t with
  | null =>
      cases h
      exact ⟨rfl, .inl rfl⟩
  | char | text =>
      cases h
      exact ⟨rfl, .inr rfl⟩
  | _ => cases h

theorem parse?_isSimpleOf {s : String} (h : parse? s t = some w) : w.IsSimpleOf t := by
  cases t with
  | null =>
      cases h
      exact ⟨rfl, .inl rfl⟩
  | text =>
      cases h
      exact ⟨rfl, .inr rfl⟩
  | boolean | int32 | int64 | float64 =>
      obtain ⟨x, -, rfl⟩ := Option.map_eq_some_iff.mp h
      exact ⟨rfl, .inr rfl⟩
  | char =>
      rw [parse?] at h
      split at h
      next =>
        cases h
        exact ⟨rfl, .inr rfl⟩
      next => cases h
  | _ => cases h

/-- A cast of a simple value to a type, if it succeeds, gives null or a simple value of that type. -/
theorem cast_isSimpleOf {v : Value} (hs : v.isSimple) (h : v.cast t = .ok w) :
    w = .null ∧ v.isNull ∨ w.IsSimpleOf t := by
  cases v with
  | null => exact .inl ⟨(Except.ok.inj h).symm, rfl⟩
  | boolean b => exact .inr (castBoolean_isSimpleOf (by simpa only [cast] using h))
  | int32 n => exact .inr (castInt32_isSimpleOf (by simpa only [cast] using h))
  | int64 n => exact .inr (castInt64_isSimpleOf (by simpa only [cast] using h))
  | float x => exact .inr (castFloat_isSimpleOf (by simpa only [cast] using h))
  | char c => exact .inr (castChar_isSimpleOf (by simpa only [cast] using h))
  | text s =>
      simp only [cast, castText] at h
      split at h
      next w' hw => exact .inr (Except.ok.inj h ▸ parse?_isSimpleOf hw)
      next => cases h
  | record | list => cases hs

theorem cast_isSimple {v : Value} (hs : v.isSimple) (h : v.cast t = .ok w) : w.isSimple := by
  rcases cast_isSimpleOf hs h with ⟨rfl, -⟩ | hw
  · rfl
  · exact hw.1

theorem inhabits_dataType {v : Value} (h : v.isSimple) : v.Inhabits v.dataType := by
  cases v <;> simp_all [Inhabits, cast, castBoolean, castInt32, castInt64, castFloat, castChar,
    castText, parse?, isSimple, dataType]

/-- A simple value other than null has one type, apart from the untyped one. -/
theorem dataType_of_inhabits {v : Value} {t : DataType} (hs : v.isSimple) (hn : v.isNull = false)
    (ht : t ≠ .null) (h : v.Inhabits t) : v.dataType = t := by
  rcases cast_isSimpleOf hs h with ⟨-, hnull⟩ | ⟨-, heq⟩
  · cases hn.symm.trans hnull
  · exact heq.resolve_left ht

/-! Records -/

/-- A record keeps its fields if each inhabits the type of its name. -/
theorem castFields_eq_self {types : List (String × DataType)} {fields : List (String × Value)} :
    castFields types fields = .ok fields ↔
      ∀ field ∈ fields, ∀ t, types.lookup field.1 = some t → field.2.Inhabits t := by
  induction fields with
  | nil => simp [castFields]
  | cons field rest ih =>
      obtain ⟨name, v⟩ := field
      rw [List.forall_mem_cons, ← ih]
      cases hname : types.lookup name with
      | none => simp [castFields, hname, bind_eq_ok, fmap_eq_ok]
      | some t => simp [castFields, hname, bind_eq_ok, fmap_eq_ok, Inhabits]

/-- A field that is found by name inhabits the type that is found by name. -/
theorem inhabits_of_castFields {types : List (String × DataType)} {fields : List (String × Value)}
    {name : String} {v : Value} {t : DataType} (h : castFields types fields = .ok fields)
    (hv : fields.lookup name = some v) (ht : types.lookup name = some t) : v.Inhabits t :=
  castFields_eq_self.mp h (name, v) (mem_of_lookup hv) t ht

theorem lookup_fieldTypes (fields : List (String × Value)) (name : String) :
    (fieldTypes fields).lookup name = (fields.lookup name).map dataType := by
  induction fields with
  | nil => rfl
  | cons field rest ih =>
      obtain ⟨field, v⟩ := field
      simp only [fieldTypes, List.lookup_cons, ih]
      cases name == field <;> rfl

theorem inhabits_dataType_of_member {fields : List (String × Value)} {name : String} {v : Value}
    (h : (Value.record fields).Inhabits (Value.record fields).dataType)
    (hv : fields.lookup name = some v) : v.Inhabits v.dataType := by
  simp only [Inhabits, dataType, cast, map_eq_ok, record.injEq, exists_eq_right] at h
  exact inhabits_of_castFields h hv (by rw [lookup_fieldTypes, hv]; rfl)

theorem record_inhabits_dataType {fields : List (String × Value)}
    (hnames : (fields.map (·.1)).Nodup) (h : ∀ field ∈ fields, field.2.Inhabits field.2.dataType) :
    (Value.record fields).Inhabits (Value.record fields).dataType := by
  have hcast : castFields (fieldTypes fields) fields = .ok fields := by
    refine castFields_eq_self.mpr fun field hfield t ht => ?_
    rw [lookup_fieldTypes, lookup_of_mem hnames hfield, Option.map_some, Option.some.injEq] at ht
    exact ht ▸ h field hfield
  simp only [Inhabits, dataType, cast, hcast, Except.map]

/-! Operators -/

/-- Simple values of one natural type inhabit the same types. -/
theorem Inhabits.of_dataType_eq {v w : Value} {t : DataType} (hv : v.Inhabits t)
    (hs : v.isSimple) (hn : v.isNull = false) (hw : w.isSimple) (h : w.dataType = v.dataType) :
    w.Inhabits t := by
  by_cases ht : t = .null
  · exact ht ▸ inhabits_null w
  · have heq : w.dataType = t := h.trans (dataType_of_inhabits hs hn ht hv)
    exact heq ▸ inhabits_dataType hw

theorem applyUnary_isSimple {op : UnaryOperator} {v w : Value} (h : applyUnary op v = .ok w) :
    w.isSimple := by
  unfold applyUnary at h
  split at h
  case h_1 | h_2 | h_5 =>
    cases h
    rfl
  case h_3 | h_4 =>
    obtain ⟨n, -, rfl⟩ := map_eq_ok.mp h
    rfl
  case h_6 => cases h

theorem applyUnary_not_inhabits {v w : Value} (h : applyUnary .not v = .ok w) :
    w.Inhabits .boolean := by
  cases v <;> simp only [applyUnary, Except.ok.injEq, reduceCtorEq] at h
  · exact h ▸ null_inhabits _
  · exact h ▸ inhabits_dataType rfl

theorem compareNulls_inhabits (op : Comparison) (bothNull : Bool) :
    (compareNulls op bothNull).Inhabits .boolean ∧ (compareNulls op bothNull).isSimple := by
  cases op <;> cases bothNull <;> decide

theorem applyBinary_logical_inhabits {op : Logical} {l r w : Value}
    (h : applyBinary (.logical op) l r = .ok w) : w.Inhabits .boolean ∧ w.isSimple := by
  simp only [applyBinary, bind_eq_ok, pure_eq_ok] at h
  obtain ⟨_, -, _, -, rfl⟩ := h
  exact ⟨inhabits_dataType rfl, rfl⟩

theorem applyBinary_comparison_inhabits {op : Comparison} {l r w : Value}
    (h : applyBinary (.comparison op) l r = .ok w) : w.Inhabits .boolean ∧ w.isSimple := by
  simp only [applyBinary] at h
  split at h
  · exact Except.ok.inj h ▸ compareNulls_inhabits op _
  · simp only [bind_eq_ok, pure_eq_ok] at h
    obtain ⟨_, -, rfl⟩ := h
    exact ⟨inhabits_dataType rfl, rfl⟩

theorem promote?_of_asFloat {v : Value} {x : Binary64} (h : v.asFloat = .ok x) :
    DataType.float64.promote? v.dataType = some .float64 := by
  cases v with
  | int32 | int64 | float => rfl
  | _ => cases h

/-- Arithmetic of numbers gives a number of the type they are promoted to. -/
theorem arithmetic_promote {op : Arithmetic} {l r w : Value} (h : arithmetic op l r = .ok w) :
    l.dataType.promote? r.dataType = some w.dataType ∧ w.isSimple := by
  unfold arithmetic at h
  split at h
  case h_1 | h_2 | h_3 | h_4 =>
    obtain ⟨n, -, rfl⟩ := map_eq_ok.mp h
    exact ⟨rfl, rfl⟩
  case h_5 | h_6 =>
    cases h
    exact ⟨rfl, rfl⟩
  case h_7 =>
    obtain ⟨y, hy, hw⟩ := bind_eq_ok.mp h
    obtain rfl := pure_eq_ok.mp hw
    exact ⟨promote?_of_asFloat hy, rfl⟩
  case h_8 => cases h

/-- What an arithmetic operation gives: null, a concatenation or a number. -/
theorem applyBinary_arithmetic_cases {op : Arithmetic} {l r w : Value}
    (h : applyBinary (.arithmetic op) l r = .ok w) :
    w = .null ∨
      (op = .add ∧ (l.isText || r.isText) ∧ w.dataType = .text ∧ w.isSimple) ∨
      (l.dataType.promote? r.dataType = some w.dataType ∧ w.isSimple) := by
  simp only [applyBinary] at h
  split at h
  · exact .inl (Except.ok.inj h).symm
  · split at h
    next hadd =>
      obtain rfl := Except.ok.inj h
      simp only [Bool.and_eq_true, decide_eq_true_eq] at hadd
      exact .inr (.inl ⟨hadd.1, hadd.2, rfl, rfl⟩)
    next => exact .inr (.inr (arithmetic_promote h))

theorem isText_of_inhabits {v : Value} {t : DataType} (hv : v.isText) (h : v.Inhabits t)
    (ht : t ≠ .null) : t.isText := by
  cases v <;> simp only [isText, Bool.false_eq_true] at hv
  all_goals exact dataType_of_inhabits rfl rfl ht h ▸ rfl

theorem isSimple_of_isNumeric {v : Value} (h : v.dataType.isNumeric) :
    v.isSimple ∧ v.isNull = false := by
  cases v with
  | list values => cases values <;> simp [dataType, DataType.isNumeric] at h
  | _ => simp_all [dataType, DataType.isNumeric, isSimple, isNull]

/-- The value inhabits the type, or the type is its natural one, which a list or a record of equal
names need not inhabit. -/
def HasType (v : Value) (t : DataType) : Prop := v.Inhabits t ∨ t = v.dataType

instance (v : Value) (t : DataType) : Decidable (v.HasType t) :=
  inferInstanceAs (Decidable (v.Inhabits t ∨ t = v.dataType))

theorem HasType.inhabits {v : Value} {t : DataType} (h : v.HasType t) (hs : v.isSimple) :
    v.Inhabits t := by
  rcases h with h | rfl
  · exact h
  · exact inhabits_dataType hs

/-- Negation gives null, or a value of the natural type of its operand. -/
theorem applyUnary_negate_cases {v w : Value} (h : applyUnary .negate v = .ok w) :
    w = .null ∨ v.isSimple ∧ v.isNull = false ∧ w.isSimple ∧ w.dataType = v.dataType := by
  cases v with
  | null =>
      cases h
      exact .inl rfl
  | int32 | int64 =>
      obtain ⟨m, -, rfl⟩ := map_eq_ok.mp h
      exact .inr ⟨rfl, rfl, rfl, rfl⟩
  | float =>
      cases h
      exact .inr ⟨rfl, rfl, rfl, rfl⟩
  | _ => cases h

theorem applyUnary_negate_inhabits {v w : Value} {t : DataType} (h : applyUnary .negate v = .ok w)
    (hv : v.Inhabits t) : w.Inhabits t := by
  rcases applyUnary_negate_cases h with rfl | ⟨hs, hn, hws, hw⟩
  · exact null_inhabits t
  · exact hv.of_dataType_eq hs hn hws hw

/-- Negation keeps the type of its operand. -/
theorem applyUnary_negate_hasType {v w : Value} {t : DataType} (h : applyUnary .negate v = .ok w)
    (hv : v.HasType t) : w.HasType t := by
  rcases hv with hv | rfl
  · exact .inl (applyUnary_negate_inhabits h hv)
  · rcases applyUnary_negate_cases h with rfl | ⟨-, -, -, hw⟩
    · exact .inl (null_inhabits _)
    · exact .inr hw.symm

theorem member_eq_ok {w v : Value} {name : String} (h : w.member name = .ok v) :
    v = .null ∨ ∃ fields, w = .record fields ∧ fields.lookup name = some v := by
  cases w <;> simp only [member, Except.ok.injEq, reduceCtorEq] at h
  case null => exact .inl h.symm
  case record fields =>
    split at h
    next hlookup => exact .inr ⟨fields, rfl, Except.ok.inj h ▸ hlookup⟩
    next => cases h

theorem member_inhabits {w v : Value} {name : String} {types : List (String × DataType)}
    {t : DataType} (hw : w.Inhabits (.record types)) (h : w.member name = .ok v)
    (ht : types.lookup name = some t) : v.Inhabits t := by
  rcases member_eq_ok h with rfl | ⟨fields, rfl, hlookup⟩
  · exact null_inhabits t
  · simp only [Inhabits, cast, map_eq_ok, record.injEq, exists_eq_right] at hw
    exact inhabits_of_castFields hw hlookup ht

/-- A member has the type that the type of its record gives it. -/
theorem member_hasType {w v : Value} {name : String} {types : List (String × DataType)}
    {t : DataType} (hw : w.HasType (.record types)) (h : w.member name = .ok v)
    (ht : types.lookup name = some t) : v.HasType t := by
  rcases hw with hw | hw
  · exact .inl (member_inhabits hw h ht)
  · rcases member_eq_ok h with rfl | ⟨fields, rfl, hlookup⟩
    · exact .inl (null_inhabits t)
    · rw [dataType, DataType.record.injEq] at hw
      rw [hw, lookup_fieldTypes, hlookup] at ht
      exact .inr (Option.some.inj ht).symm

/-- A typing between the two: a value has every type it inhabits, and the operators that keep the
type of a value keep it. -/
structure IsTyping (H : Value → DataType → Prop) : Prop where
  inhabits : ∀ {v t}, v.Inhabits t → H v t
  hasType : ∀ {v t}, H v t → v.HasType t
  negate : ∀ {v w t}, applyUnary .negate v = .ok w → H v t → H w t
  member : ∀ {w v : Value} {name types t}, H w (.record types) → w.member name = .ok v →
    types.lookup name = some t → H v t

theorem inhabits_isTyping : IsTyping Inhabits :=
  ⟨id, .inl, applyUnary_negate_inhabits, member_inhabits⟩

theorem hasType_isTyping : IsTyping HasType :=
  ⟨.inl, id, applyUnary_negate_hasType, member_hasType⟩

/-- The value has the type or is a record, which every operator but concatenation rejects. -/
def Fits (v : Value) (t : DataType) : Prop := v.HasType t ∨ ∃ fields, v = .record fields

theorem Fits.not_isText {v : Value} {t : DataType} (h : v.Fits t) (ht : t.isNumeric) :
    v.isText = false := by
  rcases h with (h | rfl) | ⟨fields, rfl⟩
  · have hne : t ≠ .null := by
      rintro rfl
      cases ht
    rw [Bool.eq_false_iff]
    intro hv
    have htext : t.isText = true := isText_of_inhabits hv h hne
    rw [DataType.not_isText_of_isNumeric ht] at htext
    cases htext
  · cases v <;> simp_all [dataType, DataType.isNumeric, isText]
  · rfl

theorem Fits.dataType_eq {v : Value} {t : DataType} (h : v.Fits t) (hv : v.dataType.isNumeric)
    (ht : t ≠ .null) : v.dataType = t := by
  rcases h with (h | rfl) | ⟨fields, rfl⟩
  · obtain ⟨hs, hn⟩ := isSimple_of_isNumeric hv
    exact dataType_of_inhabits hs hn ht h
  · rfl
  · cases hv

/-- The static type of an arithmetic operation is that of its value. -/
theorem applyBinary_arithmetic_inhabits {op : Arithmetic} {l r w : Value} {s u t : DataType}
    (h : applyBinary (.arithmetic op) l r = .ok w) (hl : l.Fits s) (hr : r.Fits u)
    (ht : op.resultType? s u = some t) : w.Inhabits t := by
  simp only [Arithmetic.resultType?] at ht
  rcases applyBinary_arithmetic_cases h with rfl | ⟨rfl, htext, hw, hsimple⟩ | ⟨hpromote, hsimple⟩
  · exact null_inhabits t
  · split at ht
    next => exact Option.some.inj ht ▸ hw ▸ inhabits_dataType hsimple
    next =>
      obtain ⟨hs, hu⟩ := DataType.isNumeric_of_promote? ht
      rw [hl.not_isText hs, hr.not_isText hu] at htext
      cases htext
  · obtain ⟨hln, hrn⟩ := DataType.isNumeric_of_promote? hpromote
    split at ht
    next hcond =>
      simp only [Bool.and_eq_true, Bool.or_eq_true] at hcond
      rcases hcond.2 with hs | hu
      · rw [hl.dataType_eq hln (by rintro rfl; cases hs)] at hln
        rw [DataType.not_isText_of_isNumeric hln] at hs
        cases hs
      · rw [hr.dataType_eq hrn (by rintro rfl; cases hu)] at hrn
        rw [DataType.not_isText_of_isNumeric hrn] at hu
        cases hu
    next =>
      obtain ⟨hs, hu⟩ := DataType.isNumeric_of_promote? ht
      rw [hl.dataType_eq hln (by rintro rfl; cases hs), hr.dataType_eq hrn (by rintro rfl; cases hu),
        ht, Option.some.injEq] at hpromote
      exact hpromote ▸ inhabits_dataType hsimple

theorem applyBinary_isSimple {op : BinaryOperator} {l r w : Value}
    (h : applyBinary op l r = .ok w) : w.isSimple := by
  cases op with
  | logical op => exact (applyBinary_logical_inhabits h).2
  | comparison op => exact (applyBinary_comparison_inhabits h).2
  | arithmetic op =>
      rcases applyBinary_arithmetic_cases h with rfl | ⟨-, -, -, hs⟩ | ⟨-, hs⟩
      · rfl
      · exact hs
      · exact hs

theorem charAt_inhabits {s i w : Value} (h : charAt s i = .ok w) :
    w.Inhabits .char ∧ w.isSimple := by
  simp only [charAt] at h
  split at h
  · exact Except.ok.inj h ▸ ⟨null_inhabits _, rfl⟩
  · simp only [bind_eq_ok] at h
    obtain ⟨i, -, s, -, h⟩ := h
    split at h
    · exact Except.ok.inj h ▸ ⟨inhabits_dataType rfl, rfl⟩
    · cases h

end Value

namespace Expr

variable {values : Parameter → Option Value} {e : Expr} {v : Value}

theorem evaluateMembers_eq_ok {members : List (String × Expr)} {fields : List (String × Value)} :
    evaluateMembers values members = .ok fields ↔
      List.Forall₂ (fun m field => m.1 = field.1 ∧ evaluateWith values m.2 = .ok field.2)
        members fields := by
  induction members generalizing fields with
  | nil => cases fields <;> simp [evaluateMembers]
  | cons m members ih =>
      obtain ⟨name, e⟩ := m
      simp only [evaluateMembers, bind_eq_ok, pure_eq_ok, ih]
      constructor
      · rintro ⟨v, hv, fields, hfields, rfl⟩
        exact .cons ⟨rfl, hv⟩ hfields
      · rintro (_ | @⟨_, ⟨_, v⟩, _, fields, ⟨rfl, hv⟩, hfields⟩)
        exact ⟨v, hv, fields, hfields, rfl⟩

/-- What a node evaluates to, from what its children evaluate to. -/
inductive Evaluated (values : Parameter → Option Value) : Expr → Value → Prop
  | constant (v : Value) (t : DataType) : Evaluated values (.constant v t) v
  | captured (name : String) (v : Value) : Evaluated values (.captured name v) v
  | parameter {p : Parameter} {v : Value} (h : values p = some v) : Evaluated values (.parameter p) v
  | member {target : Expr} {name : String} {w v : Value} (hw : evaluateWith values target = .ok w)
      (h : w.member name = .ok v) : Evaluated values (.member target name) v
  | unary {op : UnaryOperator} {e : Expr} {w v : Value} (hw : evaluateWith values e = .ok w)
      (h : Value.applyUnary op w = .ok v) : Evaluated values (.unary op e) v
  | binary {op : BinaryOperator} {l r : Expr} {x y v : Value} (hx : evaluateWith values l = .ok x)
      (hy : evaluateWith values r = .ok y) (h : Value.applyBinary op x y = .ok v) :
      Evaluated values (.binary op l r) v
  | construct {t : DataType} {members : List (String × Expr)} {fields : List (String × Value)}
      (h : List.Forall₂ (fun m field => m.1 = field.1 ∧ evaluateWith values m.2 = .ok field.2)
        members fields) : Evaluated values (.construct t members) (.record fields)
  | charAt {string index : Expr} {s i v : Value} (hs : evaluateWith values string = .ok s)
      (hi : evaluateWith values index = .ok i) (h : s.charAt i = .ok v) :
      Evaluated values (.call .charAt (some string) [index]) v

theorem evaluated_of_evaluateWith (h : evaluateWith values e = .ok v) : Evaluated values e v := by
  cases e with
  | constant w t => exact Except.ok.inj h ▸ .constant w t
  | captured name w => exact Except.ok.inj h ▸ .captured name w
  | parameter p =>
      simp only [evaluateWith] at h
      split at h
      next w hw => exact Except.ok.inj h ▸ .parameter hw
      next => cases h
  | member target name =>
      simp only [evaluateWith, bind_eq_ok] at h
      obtain ⟨w, hw, h⟩ := h
      exact .member hw h
  | unary op e =>
      simp only [evaluateWith, bind_eq_ok] at h
      obtain ⟨w, hw, h⟩ := h
      exact .unary hw h
  | binary op l r =>
      simp only [evaluateWith, bind_eq_ok] at h
      obtain ⟨x, hx, y, hy, h⟩ := h
      exact .binary hx hy h
  | construct t members =>
      simp only [evaluateWith, bind_eq_ok, pure_eq_ok] at h
      obtain ⟨fields, hfields, rfl⟩ := h
      exact .construct (evaluateMembers_eq_ok.mp hfields)
  | call method receiver args =>
      cases method with
      | charAt =>
          unfold evaluateWith at h
          split at h
          next string index =>
            simp only [bind_eq_ok] at h
            obtain ⟨s, hs, i, hi, h⟩ := h
            exact .charAt hs hi h
          next => cases h
      | select | filter | join | toList | existence | absence | named => cases h
  | collection | lambda | outerRow | table | column | select | join | projection | function
  | subquery => simp only [evaluateWith, reduceCtorEq] at h

/-- What makes the static types of a tree those of its values: constants have their types, and
no member is read of a record that is constructed at a type of its own. -/
def TypesHold : Expr → Prop
  | .constant v t => v.HasType t
  | .member (.construct t _) _ => t.isOpen
  | _ => True

/-- The same for a typing of its own, which captured values must have as well. -/
def TypedBy (H : Value → DataType → Prop) : Expr → Prop
  | .constant v t => H v t
  | .captured _ v => H v v.dataType
  | .member (.construct t _) _ => t.isOpen
  | _ => True

/-- The value has the static type, or it is a record that is constructed right here. -/
def HasStaticType (e : Expr) (v : Value) : Prop :=
  ∀ t, e.staticType? = some t →
    v.HasType t ∨ ∃ u ms fields, e = .construct u ms ∧ v = .record fields

theorem evaluateWith_typed {H : Value → DataType → Prop} {t : DataType} (hH : Value.IsTyping H)
    (hvalues : ∀ p v, values p = some v → H v p.type) (h : ∀ x ∈ e.nodes, x.TypedBy H)
    (hv : evaluateWith values e = .ok v) (ht : e.staticType? = some t) :
    H v t ∨ ∃ u ms fields, e = .construct u ms ∧ v = .record fields := by
  induction e using children_induction generalizing v t with
  | step e ih =>
      obtain ⟨hnode, hbelow⟩ := forall_mem_nodes.mp h
      cases evaluated_of_evaluateWith hv with
      | constant => exact .inl (Option.some.inj ht ▸ hnode)
      | captured => exact .inl (Option.some.inj ht ▸ hnode)
      | parameter hp => exact .inl (Option.some.inj ht ▸ hvalues _ _ hp)
      | @member target name w v hw hm =>
          simp only [staticType?] at ht
          split at ht
          next types htarget =>
            rcases ih target (by simp [children]) (hbelow target (by simp [children])) hw htarget
              with hw' | ⟨u, ms, fields, rfl, -⟩
            · exact .inl (hH.member hw' hm ht)
            · simp only [staticType?, Option.some.injEq] at htarget
              subst htarget
              cases hnode
          next => cases ht
      | @unary op operand w v hw hop =>
          cases op with
          | not => exact .inl (Option.some.inj ht ▸ hH.inhabits (Value.applyUnary_not_inhabits hop))
          | negate =>
              rcases ih operand (by simp [children]) (hbelow operand (by simp [children])) hw ht
                with hw' | ⟨_, _, _, -, rfl⟩
              · exact .inl (hH.negate hop hw')
              · cases hop
      | @binary op l r x y v hx hy hop =>
          have hfits {c : Expr} {u : Value} {s : DataType} (hc : c ∈ (binary op l r).children)
              (hu : evaluateWith values c = .ok u) (hs : c.staticType? = some s) : u.Fits s := by
            rcases ih c hc (hbelow c hc) hu hs with hu | ⟨_, _, fields, -, rfl⟩
            · exact .inl (hH.hasType hu)
            · exact .inr ⟨fields, rfl⟩
          refine .inl (hH.inhabits ?_)
          cases op with
          | logical op => exact Option.some.inj ht ▸ (Value.applyBinary_logical_inhabits hop).1
          | comparison op =>
              exact Option.some.inj ht ▸ (Value.applyBinary_comparison_inhabits hop).1
          | arithmetic op =>
              simp only [staticType?, bind, Option.bind_eq_some_iff] at ht
              obtain ⟨s, hs, u, hu, ht⟩ := ht
              exact Value.applyBinary_arithmetic_inhabits hop (hfits (by simp [children]) hx hs)
                (hfits (by simp [children]) hy hu) ht
      | construct hfields => exact .inr ⟨_, _, _, rfl, rfl⟩
      | charAt hs hi hc =>
          exact .inl (Option.some.inj ht ▸ hH.inhabits (Value.charAt_inhabits hc).1)

theorem evaluateWith_static (hvalues : ∀ p v, values p = some v → v.Inhabits p.type)
    (h : ∀ x ∈ e.nodes, x.TypesHold) (hv : evaluateWith values e = .ok v) :
    e.HasStaticType v := by
  have htyped : ∀ x ∈ e.nodes, x.TypedBy Value.HasType := by
    intro x hx
    have hx := h x hx
    cases x with
    | captured name w => exact .inr rfl
    | constant w t => exact hx
    | member target name => cases target <;> exact hx
    | _ => trivial
  exact fun t ht =>
    evaluateWith_typed Value.hasType_isTyping (fun p w hp => .inl (hvalues p w hp)) htyped hv ht

/-! Soundness of static types -/

/-- Constants and captured values inhabit their types, and records are constructed at types that
take any record. -/
def WellTyped : Expr → Prop
  | .constant v t => v.Inhabits t
  | .captured _ v => v.Inhabits v.dataType
  | .construct t _ => t.isOpen
  | _ => True

instance : DecidablePred WellTyped
  | .constant v t => inferInstanceAs (Decidable (v.Inhabits t))
  | .captured _ v => inferInstanceAs (Decidable (v.Inhabits v.dataType))
  | .construct t _ => inferInstanceAs (Decidable t.isOpen)
  | .parameter _ | .collection _ | .member .. | .unary .. | .binary .. | .call .. | .lambda ..
  | .outerRow _ | .table _ | .column _ | .select _ | .join .. | .projection _ | .function _
  | .subquery .. => .isTrue trivial

theorem typedBy_of_wellTyped (h : ∀ x ∈ e.nodes, x.WellTyped) :
    ∀ x ∈ e.nodes, x.TypedBy Value.Inhabits := by
  intro x hx
  cases x with
  | constant v t => exact h _ hx
  | captured name v => exact h _ hx
  | member target name =>
      cases target with
      | construct t ms =>
          have hmem : construct t ms ∈ e.nodes :=
            mem_nodes_trans hx (mem_nodes_of_child List.mem_cons_self (self_mem_nodes _))
          exact h _ hmem
      | _ => trivial
  | _ => trivial

/-- What a well typed expression evaluates to inhabits its static type. -/
theorem evaluateWith_inhabits {t : DataType}
    (hvalues : ∀ p v, values p = some v → v.Inhabits p.type) (h : ∀ x ∈ e.nodes, x.WellTyped)
    (hv : evaluateWith values e = .ok v) (ht : e.staticType? = some t) : v.Inhabits t := by
  rcases evaluateWith_typed Value.inhabits_isTyping hvalues (typedBy_of_wellTyped h) hv ht with
    hin | ⟨u, ms, fields, rfl, rfl⟩
  · exact hin
  · rw [← Option.some.inj ht]
    exact Value.record_inhabits_open (h _ (self_mem_nodes _)) fields

theorem toConstant_of_inhabits {t : DataType} (hv : e.evaluate = .ok v)
    (ht : e.staticType? = some t) (h : v.Inhabits t) : e.toConstant = .ok (.constant v t) := by
  have hcast : v.cast t = .ok v := h
  simp only [toConstant, hv, ht, Option.getD_some, bind, Except.bind, hcast]
  rfl

/-- Static types are sound: under every assignment of values that inhabit the types of their
parameters, an expression evaluates to a value that inhabits its static type. So the value that takes
the place of a subtree of known type is the value of that subtree, which the cast keeps. -/
theorem staticType_sound (e : Expr) (h : ∀ x ∈ e.nodes, x.WellTyped) :
    (∀ values : Parameter → Option Value, (∀ p v, values p = some v → v.cast p.type = .ok v) →
      ∀ v t, evaluateWith values e = .ok v → e.staticType? = some t → v.cast t = .ok v) ∧
    ∀ x ∈ e.nodes, ∀ v t, x.evaluate = .ok v → x.staticType? = some t →
      x.toConstant = .ok (.constant v t) := by
  constructor
  · intro values hvalues v t hv ht
    exact evaluateWith_inhabits hvalues h hv ht
  · intro x hx v t hv ht
    have hbelow : ∀ y ∈ x.nodes, y.WellTyped := fun y hy => h y (mem_nodes_trans hx hy)
    exact toConstant_of_inhabits hv ht (evaluateWith_inhabits (by simp) hbelow hv ht)

/-- A member of a captured record, known as a 32-bit integer, is added to a 64-bit parameter. -/
theorem staticType_sound_of_sum :
    let n : Parameter := ⟨0, "n", .int64⟩
    let x : Expr := .member (.captured "point" (.record [("x", .int32 2), ("y", .text "b")])) "x"
    let e : Expr := .binary (.arithmetic .add) x (.parameter n)
    (∀ y ∈ e.nodes, y.WellTyped) ∧ e.staticType? = some .int64 ∧
      evaluateWith (fun p => if p = n then some (.int64 3) else none) e = .ok (.int64 5) ∧
      (Value.int64 5).cast .int64 = .ok (.int64 5) ∧
      x.toConstant = .ok (.constant (.int32 2) .int32) := by
  intro n x e
  have htyped : ∀ y ∈ e.nodes, y.WellTyped := by decide
  have hvalue : evaluateWith (fun p => if p = n then some (.int64 3) else none) e =
      .ok (.int64 5) := by cbv
  have hvalues : ∀ p v, (if p = n then some (Value.int64 3) else none) = some v →
      v.cast p.type = .ok v := by
    intro p v hp
    split at hp
    next hn => cases hp; rw [hn]; rfl
    next => cases hp
  have hsound := staticType_sound e htyped
  refine ⟨htyped, rfl, hvalue, hsound.1 _ hvalues _ _ hvalue rfl, ?_⟩
  exact hsound.2 x (mem_nodes_of_child List.mem_cons_self (self_mem_nodes x)) _ _ rfl rfl

/-- What makes every value inhabit its natural type. -/
def NaturalTypesHold : Expr → Prop
  | .constant v _ => v.Inhabits v.dataType
  | .captured _ v => v.Inhabits v.dataType
  | .construct _ members => (members.map (·.1)).Nodup
  | _ => True

theorem evaluateWith_natural (hvalues : ∀ p v, values p = some v → v.Inhabits v.dataType)
    (h : ∀ x ∈ e.nodes, x.NaturalTypesHold) (hv : evaluateWith values e = .ok v) :
    v.Inhabits v.dataType := by
  induction e using children_induction generalizing v with
  | step e ih =>
      obtain ⟨hnode, hbelow⟩ := forall_mem_nodes.mp h
      cases evaluated_of_evaluateWith hv with
      | constant => exact hnode
      | captured => exact hnode
      | parameter hp => exact hvalues _ _ hp
      | @member target name w v hw hm =>
          have hw' := ih target (by simp [children]) (hbelow target (by simp [children])) hw
          cases w <;> simp only [Value.member, Except.ok.injEq, reduceCtorEq] at hm
          case null => exact hm ▸ Value.null_inhabits _
          case record fields =>
            split at hm
            next hlookup =>
              exact Except.ok.inj hm ▸ Value.inhabits_dataType_of_member hw' hlookup
            next => cases hm
      | unary hw hop => exact Value.inhabits_dataType (Value.applyUnary_isSimple hop)
      | binary hx hy hop => exact Value.inhabits_dataType (Value.applyBinary_isSimple hop)
      | @construct t members fields hfields =>
          have hnames : members.map (·.1) = fields.map (·.1) := by
            rw [← List.forall₂_eq_eq_eq, List.forall₂_map_left_iff, List.forall₂_map_right_iff]
            exact hfields.imp fun _ _ h => h.1
          refine Value.record_inhabits_dataType (hnames ▸ hnode) fun field hfield => ?_
          obtain ⟨m, hm, -, hvalue⟩ := exists_of_mem_right hfields hfield
          have hchild : m.2 ∈ (construct t members).children := List.mem_map_of_mem hm
          exact ih m.2 hchild (hbelow m.2 hchild) hvalue
      | charAt hs hi hc => exact Value.inhabits_dataType (Value.charAt_inhabits hc).2

end Expr

end Quarry
