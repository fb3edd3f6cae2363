import Mathlib.Tactic.Common
import Quarry.Operator
/-!
Integers of two widths, conversions to them and their arithmetic. A result is exact wherever it fits
the width, and what fails is told apart by its cause: a divisor of zero, or a result out of range.
Only the division of the least integer by minus one, and the remainder of that division, is put down
to the wrong cause.
-/
namespace Quarry

/-! Widths -/

/-- The widths of integers. -/
inductive Width where
  | int32
  | int64
  deriving DecidableEq

namespace Width

def type : Width → DataType
  | .int32 => .int32
  | .int64 => .int64

def least : Width → Int
  | .int32 => Int32.minValue.toInt
  | .int64 => Int64.minValue.toInt

def greatest : Width → Int
  | .int32 => Int32.maxValue.toInt
  | .int64 => Int64.maxValue.toInt

/-- Whether a number is in the range of a width. -/
def Holds (w : Width) (n : Int) : Prop := w.least ≤ n ∧ n ≤ w.greatest

instance (w : Width) (n : Int) : Decidable (w.Holds n) := inferInstanceAs (Decidable (_ ∧ _))

/-- The width at which two integers are combined: the narrow one only if both have it. -/
def common : Width → Width → Width
  | .int32, .int32 => .int32
  | _, _ => .int64

/-- The integer of a width that is equal to a number. -/
def value? : Width → Int → Option Value
  | .int32, n => (Value.int32? n).map .int32
  | .int64, n => (Value.int64? n).map .int64

end Width

/-- A value is an integer of this width, equal to this number. -/
inductive Value.IsInteger : Value → Width → Int → Prop
  | int32 (n : Int32) : IsInteger (.int32 n) .int32 n.toInt
  | int64 (n : Int64) : IsInteger (.int64 n) .int64 n.toInt

namespace Value

theorem int32?_eq_some {n : Int} {m : Int32} : int32? n = some m ↔ m.toInt = n := by
  unfold int32?
  constructor
  · intro h
    split at h
    next hrange =>
      obtain rfl := Option.some.inj h
      rw [Int32.toInt_minValue, Int32.toInt_maxValue] at hrange
      exact Int32.toInt_ofInt_of_le hrange.1 (by omega)
    next => cases h
  · rintro rfl
    rw [if_pos ⟨Int32.minValue_le_toInt m, Int32.toInt_le m⟩, Int32.ofInt_toInt]

theorem int64?_eq_some {n : Int} {m : Int64} : int64? n = some m ↔ m.toInt = n := by
  unfold int64?
  constructor
  · intro h
    split at h
    next hrange =>
      obtain rfl := Option.some.inj h
      rw [Int64.toInt_minValue, Int64.toInt_maxValue] at hrange
      exact Int64.toInt_ofInt_of_le hrange.1 (by omega)
    next => cases h
  · rintro rfl
    rw [if_pos ⟨Int64.minValue_le_toInt m, Int64.toInt_le m⟩, Int64.ofInt_toInt]

end Value

namespace Width

variable {w w₁ w₂ : Width} {n : Int} {v : Value}

theorem value?_eq_some : w.value? n = some v ↔ v.IsInteger w n := by
  constructor
  · intro h
    cases w with
    | int32 =>
        obtain ⟨m, hm, rfl⟩ := Option.map_eq_some_iff.mp h
        exact Value.int32?_eq_some.mp hm ▸ .int32 m
    | int64 =>
        obtain ⟨m, hm, rfl⟩ := Option.map_eq_some_iff.mp h
        exact Value.int64?_eq_some.mp hm ▸ .int64 m
  · intro h
    cases h with
    | int32 m => exact Option.map_eq_some_iff.mpr ⟨m, Value.int32?_eq_some.mpr rfl, rfl⟩
    | int64 m => exact Option.map_eq_some_iff.mpr ⟨m, Value.int64?_eq_some.mpr rfl, rfl⟩

theorem value?_eq_none : w.value? n = none ↔ ¬ w.Holds n := by
  cases w with
  | int32 => simp [value?, Value.int32?, Holds, least, greatest]
  | int64 => simp [value?, Value.int64?, Holds, least, greatest]

/-- There is an integer of the width for each number in range. -/
theorem exists_isInteger : (∃ v : Value, v.IsInteger w n) ↔ w.Holds n := by
  rw [← not_iff_not, ← value?_eq_none, Option.eq_none_iff_forall_ne_some, not_exists]
  simp only [ne_eq, value?_eq_some]

theorem greatest_pos (w : Width) : 0 < w.greatest := by cases w <;> decide

theorem least_eq (w : Width) : w.least = -w.greatest - 1 := by cases w <;> decide

theorem Holds.common (h : w₁.Holds n) : (w₁.common w₂).Holds n := by
  cases w₁ with
  | int32 =>
      have hwiden : Width.int64.Holds n :=
        ⟨Int.le_trans (by decide) h.1, Int.le_trans h.2 (by decide)⟩
      cases w₂ with
      | int32 => exact h
      | int64 => exact hwiden
  | int64 => exact h

/-- A quotient is in range, unless it is that of the least integer and minus one. -/
theorem holds_tdiv {m n : Int} (hm : w.Holds m) (hn : n ≠ 0) :
    w.Holds (m.tdiv n) ↔ ¬ (m = w.least ∧ n = -1) := by
  have hgreatest := w.greatest_pos
  unfold Holds at *
  rw [least_eq] at *
  by_cases hminus : n = -1
  · subst hminus
    rw [Int.tdiv_neg, Int.tdiv_one]
    omega
  · refine iff_of_true ?_ fun h => hminus h.2
    by_cases hone : n = 1
    · rwa [hone, Int.tdiv_one]
    · have hhalf : (m.tdiv n).natAbs ≤ m.natAbs / 2 := by
        rw [Int.natAbs_tdiv]
        exact Nat.div_le_div_left (by omega) (by decide)
      omega

/-- A remainder is in range: it lies between zero and the dividend. -/
theorem holds_tmod {m : Int} (hm : w.Holds m) (n : Int) : w.Holds (m.tmod n) := by
  have hgreatest := w.greatest_pos
  have hsize : (m.tmod n).natAbs ≤ m.natAbs := by
    rw [Int.natAbs_tmod]
    exact Nat.mod_le _ _
  unfold Holds at *
  rw [least_eq] at *
  rcases Int.le_total 0 m with hsign | hsign
  · have hrest := Int.tmod_nonneg n hsign
    omega
  · have hrest := Int.tmod_nonneg n (Int.neg_nonneg_of_nonpos hsign)
    rw [Int.neg_tmod] at hrest
    omega

end Width

/-! Exact conversions -/

/-- The outcome of a conversion to integers of a width: the number that is denoted, if it is in
range, and a failed conversion if no number in range is denoted. -/
structure Width.ConvertsExactly (w : Width) (Denotes : Int → Prop) (outcome : Except Error Value) :
    Prop where
  succeeds : (∃ v, outcome = .ok v) ↔ ∃ n, Denotes n ∧ w.Holds n
  equal : ∀ v, outcome = .ok v → ∃ n, Denotes n ∧ v.IsInteger w n
  fails : ∀ err, outcome = .error err → err.kind = .conversion

theorem Width.convertsExactly {w : Width} {Denotes : Int → Prop} {outcome : Except Error Value}
    (hok : ∀ v, outcome = .ok v ↔ ∃ n, Denotes n ∧ v.IsInteger w n)
    (hfails : ∀ err, outcome = .error err → err.kind = .conversion) :
    w.ConvertsExactly Denotes outcome where
  succeeds := by
    simp only [hok, ← Width.exists_isInteger]
    constructor
    · rintro ⟨v, n, hn, hv⟩
      exact ⟨n, hn, v, hv⟩
    · rintro ⟨n, hn, v, hv⟩
      exact ⟨v, n, hn, hv⟩
  equal v := (hok v).mp
  fails := hfails

/-! Exact results -/

/-- The result of an operation on numbers of any size. A quotient is cut off at the point and the
remainder has the sign of the dividend; neither exists for a divisor of zero. -/
def Arithmetic.result? : Arithmetic → Int → Int → Option Int
  | .add, m, n => some (m + n)
  | .sub, m, n => some (m - n)
  | .mul, m, n => some (m * n)
  | .div, m, n => if n = 0 then none else some (m.tdiv n)
  | .mod, m, n => if n = 0 then none else some (m.tmod n)

def Arithmetic.divides : Arithmetic → Bool
  | .div | .mod => true
  | _ => false

/-- The outcome of an operation on integers at a width is the exact result where that is in range,
and otherwise the failure that tells why there is none. -/
structure Arithmetic.Classified (op : Arithmetic) (w : Width) (m n : Int)
    (outcome : Except Error Value) : Prop where
  exact : ∀ r, op.result? m n = some r → w.Holds r → ∃ v, outcome = .ok v ∧ v.IsInteger w r
  zeroDivisor : outcome = .error .divisionByZero ↔ op.divides ∧ n = 0
  overflow : outcome = .error (.integerOverflow op.symbol) ↔
    ∃ r, op.result? m n = some r ∧ ¬ w.Holds r

namespace Arithmetic

variable {op : Arithmetic} {w : Width} {m n r : Int} {v : Value}

theorem result?_eq_none : op.result? m n = none ↔ op.divides ∧ n = 0 := by
  cases op <;> simp [result?, divides]

/-- Results of a division are in range, but for one pair of operands. -/
theorem holds_of_divides (hm : w.Holds m) (hdivides : op.divides) (hexact : op.result? m n = some r)
    (hpair : ¬ (m = w.least ∧ n = -1)) : w.Holds r := by
  cases op with
  | add | sub | mul => cases hdivides
  | div =>
      obtain ⟨hn, hexact⟩ := Option.ite_none_left_eq_some.mp hexact
      obtain rfl := Option.some.inj hexact
      exact (Width.holds_tdiv hm hn).mpr hpair
  | mod =>
      obtain ⟨-, hexact⟩ := Option.ite_none_left_eq_some.mp hexact
      obtain rfl := Option.some.inj hexact
      exact Width.holds_tmod hm n

theorem overflow_ne_divisionByZero (op : Arithmetic) :
    Error.integerOverflow op.symbol ≠ .divisionByZero := by
  cases op <;> decide

namespace Classified

theorem ok (hexact : op.result? m n = some r) (hv : v.IsInteger w r) :
    op.Classified w m n (.ok v) where
  exact r' hr' _ := by
    obtain rfl := Option.some.inj (hexact.symm.trans hr')
    exact ⟨v, rfl, hv⟩
  zeroDivisor := by
    rw [← result?_eq_none, hexact]
    simp
  overflow := by
    have hholds : w.Holds r := Width.exists_isInteger.mp ⟨v, hv⟩
    simp [hexact, hholds]

theorem outOfRange (hexact : op.result? m n = some r) (hr : ¬ w.Holds r) :
    op.Classified w m n (.error (.integerOverflow op.symbol)) where
  exact r' hr' hholds := by
    obtain rfl := Option.some.inj (hexact.symm.trans hr')
    exact absurd hholds hr
  zeroDivisor := by
    rw [← result?_eq_none, hexact]
    simp [overflow_ne_divisionByZero]
  overflow := iff_of_true rfl ⟨r, hexact, hr⟩

theorem byZero (hexact : op.result? m n = none) :
    op.Classified w m n (.error .divisionByZero) where
  exact r hr := by
    rw [hexact] at hr
    cases hr
  zeroDivisor := iff_of_true rfl (result?_eq_none.mp hexact)
  overflow := by
    have hne := (overflow_ne_divisionByZero op).symm
    simp [hexact, hne]

end Classified

end Arithmetic

/-! Arithmetic of integers -/

namespace Value

variable {op : Arithmetic} {w w₁ w₂ : Width} {m n : Int} {a b : Value}

theorem IsInteger.holds (h : a.IsInteger w n) : w.Holds n := Width.exists_isInteger.mp ⟨a, h⟩

theorem combineInts_map {α β : Type} (f : α → β) (fit? : Int → Option α) (op : Arithmetic)
    (m n : Int) :
    (combineInts fit? op m n).map f = combineInts (fun k => (fit? k).map f) op m n := by
  cases op with
  | add => cases h : fit? (m + n) <;> simp [combineInts, h, Except.map]
  | sub => cases h : fit? (m - n) <;> simp [combineInts, h, Except.map]
  | mul => cases h : fit? (m * n) <;> simp [combineInts, h, Except.map]
  | div =>
      simp only [combineInts]
      split
      · rfl
      · cases fit? (m.tdiv n) <;> rfl
  | mod =>
      simp only [combineInts, Option.isNone_map]
      split
      · rfl
      · cases fit? (m.tmod n) <;> rfl

/-- Integers are combined at their common width. -/
theorem applyBinary_integers (op : Arithmetic) (ha : a.IsInteger w₁ m) (hb : b.IsInteger w₂ n) :
    applyBinary (.arithmetic op) a b = combineInts (w₁.common w₂).value? op m n := by
  have htext (a b : Value) (ha : a.isText = false) (hb : b.isText = false) (hna : a.isNull = false)
      (hnb : b.isNull = false) : applyBinary (.arithmetic op) a b = arithmetic op a b := by
    simp [applyBinary, ha, hb, hna, hnb]
  cases ha <;> cases hb <;> rw [htext _ _ rfl rfl rfl rfl] <;> exact combineInts_map _ _ _ _ _

section Combining

variable {α : Type} {fit? : Int → Option α} {x : α} {r : Int}

theorem combineInts_eq_ok (hexact : op.result? m n = some r) (hr : fit? r = some x)
    (hquotient : op.divides → fit? (m.tdiv n) ≠ none) : combineInts fit? op m n = .ok x := by
  cases op with
  | add | sub | mul =>
      obtain rfl := Option.some.inj hexact
      simp only [combineInts, hr]
  | div | mod =>
      obtain ⟨hn, hexact⟩ := Option.ite_none_left_eq_some.mp hexact
      obtain rfl := Option.some.inj hexact
      simp [combineInts, hn, hr, hquotient rfl]

theorem combineInts_outOfRange (hexact : op.result? m n = some r) (hr : fit? r = none)
    (hdivides : op.divides = false) :
    combineInts fit? op m n = .error (.integerOverflow op.symbol) := by
  cases op with
  | add | sub | mul =>
      obtain rfl := Option.some.inj hexact
      simp only [combineInts, hr]
  | div | mod => cases hdivides

/-- Without a quotient in range, for whichever reason, the divisor is taken to be zero. -/
theorem combineInts_divides (hdivides : op.divides) (h : n = 0 ∨ fit? (m.tdiv n) = none) :
    combineInts fit? op m n = .error .divisionByZero := by
  cases op with
  | add | sub | mul => cases hdivides
  | div | mod =>
      rcases h with rfl | hquotient
      · simp [combineInts]
      · simp [combineInts, hquotient]

end Combining

/-- Arithmetic of integers of either width is exact, and its failures are told apart, but for one
pair of operands at each width: the least integer, divided by minus one or reduced by it, is refused
as if the divisor were zero. -/
theorem arithmetic_classified_iff (op : Arithmetic) (ha : a.IsInteger w₁ m)
    (hb : b.IsInteger w₂ n) :
    let w := w₁.common w₂
    let outcome := applyBinary (.arithmetic op) a b
    (op.Classified w m n outcome ↔ ¬ (op.divides ∧ m = w.least ∧ n = -1)) ∧
      (op.divides → m = w.least → n = -1 → outcome = .error .divisionByZero) := by
  intro w outcome
  have houtcome : outcome = combineInts w.value? op m n := applyBinary_integers op ha hb
  have hm : w.Holds m := ha.holds.common
  have hquotient (hn : n ≠ 0) : w.value? (m.tdiv n) = none ↔ m = w.least ∧ n = -1 := by
    rw [Width.value?_eq_none, Width.holds_tdiv hm hn, not_not]
  have hleast (hdivides : op.divides) (hpair : m = w.least ∧ n = -1) :
      outcome = .error .divisionByZero := by
    rw [houtcome]
    exact combineInts_divides hdivides (.inr ((hquotient (by omega)).mpr hpair))
  refine ⟨⟨fun h => ?_, fun h => ?_⟩, fun hdivides hm hn => hleast hdivides ⟨hm, hn⟩⟩
  · rintro ⟨hdivides, hpair⟩
    have hzero := (h.zeroDivisor.mp (hleast hdivides hpair)).2
    omega
  · rw [houtcome]
    cases hexact : op.result? m n with
    | none =>
        obtain ⟨hdivides, hn⟩ := Arithmetic.result?_eq_none.mp hexact
        rw [combineInts_divides hdivides (.inl hn)]
        exact .byZero hexact
    | some r =>
        have hn (hdivides : op.divides) : n ≠ 0 := fun hn => by
          rw [Arithmetic.result?_eq_none.mpr ⟨hdivides, hn⟩] at hexact
          cases hexact
        by_cases hr : w.Holds r
        · obtain ⟨v, hv⟩ := Width.exists_isInteger.mpr hr
          rw [combineInts_eq_ok hexact (Width.value?_eq_some.mpr hv) fun hdivides hnone =>
            h ⟨hdivides, (hquotient (hn hdivides)).mp hnone⟩]
          exact .ok hexact hv
        · have hdivides : op.divides = false := Bool.eq_false_iff.mpr fun hdivides =>
            hr (Arithmetic.holds_of_divides hm hdivides hexact fun hpair => h ⟨hdivides, hpair⟩)
          rw [combineInts_outOfRange hexact (Width.value?_eq_none.mpr hr) hdivides]
          exact .outOfRange hexact hr

/-- At the greater width the least integer of the smaller one has a quotient by minus one. -/
theorem arithmetic_classified_iff_of_mixed :
    IsInteger (.int32 (-2147483648)) .int32 (-2147483648) ∧ IsInteger (.int64 (-1)) .int64 (-1) ∧
      applyBinary (.arithmetic .div) (.int32 (-2147483648)) (.int64 (-1)) =
        .ok (.int64 2147483648) := by
  have ha : IsInteger (.int32 (-2147483648)) .int32 (-2147483648) := .int32 (-2147483648)
  have hb : IsInteger (.int64 (-1)) .int64 (-1) := .int64 (-1)
  obtain ⟨hclassified, -⟩ := arithmetic_classified_iff .div ha hb
  obtain ⟨v, houtcome, hv⟩ := (hclassified.mpr (by decide)).exact 2147483648 rfl (by decide)
  refine ⟨ha, hb, houtcome.trans ?_⟩
  have hvalue : Width.int64.value? 2147483648 = some (.int64 2147483648) := rfl
  rw [Option.some.inj ((Width.value?_eq_some.mpr hv).symm.trans hvalue)]

/-- The quotient of the least integer and minus one is out of range and the remainder is zero, yet
both operations report a divisor of zero. -/
theorem least_by_minusOne_misclassified :
    applyBinary (.arithmetic .div) (.int32 Int32.minValue) (.int32 (-1)) =
        .error .divisionByZero ∧
      ¬ Arithmetic.div.Classified .int32 Int32.minValue.toInt (-1)
        (applyBinary (.arithmetic .div) (.int32 Int32.minValue) (.int32 (-1))) ∧
      applyBinary (.arithmetic .mod) (.int64 Int64.minValue) (.int32 (-1)) =
        .error .divisionByZero ∧
      ¬ Arithmetic.mod.Classified .int64 Int64.minValue.toInt (-1)
        (applyBinary (.arithmetic .mod) (.int64 Int64.minValue) (.int32 (-1))) := by
  have hdiv : applyBinary (.arithmetic .div) (.int32 Int32.minValue) (.int32 (-1)) =
      .error .divisionByZero := rfl
  have hmod : applyBinary (.arithmetic .mod) (.int64 Int64.minValue) (.int32 (-1)) =
      .error .divisionByZero := rfl
  refine ⟨hdiv, fun h => ?_, hmod, fun h => ?_⟩
  · cases (h.zeroDivisor.mp hdiv).2
  · cases (h.zeroDivisor.mp hmod).2

end Value

end Quarry
