import Mathlib
import Quarry.Proofs.Casting
import Quarry.Proofs.Integers
/-!
Casts of floats to integers. A finite float denotes a rational number, and where that number is an
integer of the width the cast gives just this integer; any other float has no conversion. One float
is an exception: the number one above the greatest integer of 64 bits is taken for that integer.
-/
namespace Quarry

/-! The number that a float denotes -/

/-- The number that the bits denote: a binary fraction after a one, or after a zero where the
exponent field is zero, times a power of two. Infinities and NaN denote none. -/
def Binary64.value? (x : Binary64) : Option ℚ :=
  let sign : ℚ := if x.isNegative then -1 else 1
  let fraction : ℚ := x.fractionField / 2 ^ 52
  if x.exponentField = 2047 then none
  else if x.exponentField = 0 then some (sign * fraction * 2 ^ (-1022 : ℤ))
  else some (sign * (1 + fraction) * 2 ^ ((x.exponentField : ℤ) - 1023))

namespace Scaled

variable {s : Scaled} {n : ℤ}

/-- The number `± mantissa * 2 ^ exponent`. -/
def value (s : Scaled) : ℚ := (s.signed s.mantissa : ℤ) * 2 ^ s.exponent

theorem ofBinary64?_cases {x : Binary64} (h : ofBinary64? x = some s) :
    s = ⟨x.isNegative, x.fractionField, -1074⟩ ∨
      s = ⟨x.isNegative, 2 ^ 52 + x.fractionField, (x.exponentField : ℤ) - 1075⟩ := by
  unfold ofBinary64? at h
  split at h
  · cases h
  · split at h
    · exact .inl (Option.some.inj h).symm
    · exact .inr (Option.some.inj h).symm

theorem cast_signed (s : Scaled) (n : Nat) :
    ((s.signed n : ℤ) : ℚ) = (if s.negative then -1 else 1) * n := by
  unfold signed
  split <;> simp

theorem value?_eq (x : Binary64) : x.value? = (ofBinary64? x).map value := by
  have hunit (e : ℤ) : (2 : ℚ) ^ (e + 52) = 2 ^ e * 2 ^ 52 := by
    rw [zpow_add₀ two_ne_zero]
    rfl
  unfold Binary64.value? ofBinary64?
  dsimp only
  split
  · rfl
  · split
    · have hexponent : (-1022 : ℤ) = -1074 + 52 := by norm_num
      rw [hexponent, hunit, Option.map_some, value, cast_signed]
      congr 1
      dsimp only
      generalize (2 : ℚ) ^ (-1074 : ℤ) = unit
      ring
    · have hexponent : (x.exponentField : ℤ) - 1023 = x.exponentField - 1075 + 52 := by ring
      rw [hexponent, hunit, Option.map_some, value, cast_signed]
      congr 1
      dsimp only
      generalize (2 : ℚ) ^ ((x.exponentField : ℤ) - 1075) = unit
      push_cast [Nat.pow_eq]
      ring

theorem signed_mul (s : Scaled) (a b : Nat) : s.signed (a * b) = s.signed a * b := by
  unfold signed
  split <;> push_cast <;> ring

theorem natAbs_signed (s : Scaled) (a : Nat) : (s.signed a).natAbs = a := by
  unfold signed
  split <;> simp

theorem signed_eq_natCast {a b : Nat} (h : s.signed a = b) (hb : 0 < b) :
    s.negative = false ∧ a = b := by
  unfold signed at h
  split at h
  next => omega
  next hsign => exact ⟨Bool.eq_false_iff.mpr hsign, Int.natCast_inj.mp h⟩

/-- The integer that is read is the number itself, and it is read wherever there is one. -/
theorem toInt?_eq_some : s.toInt? = some n ↔ s.value = n := by
  unfold toInt? value
  dsimp only
  split
  next hexponent =>
    obtain ⟨e, he⟩ := Int.eq_ofNat_of_zero_le hexponent
    rw [he, Int.toNat_natCast, Option.some.injEq, Nat.pow_eq, signed_mul, zpow_natCast]
    norm_cast
  next hexponent =>
    obtain ⟨e, he⟩ := Int.eq_ofNat_of_zero_le (a := -s.exponent) (by omega)
    rw [he, Int.toNat_natCast, Nat.pow_eq, ← neg_neg s.exponent, he, zpow_neg, zpow_natCast]
    have hvalue : (s.signed s.mantissa : ℚ) * ((2 : ℚ) ^ e)⁻¹ = n ↔
        s.signed s.mantissa = n * (2 ^ e : Nat) := by
      rw [← div_eq_mul_inv, div_eq_iff (by positivity)]
      norm_cast
    rw [hvalue]
    by_cases hwhole : s.mantissa % 2 ^ e = 0
    · have hmantissa : s.signed s.mantissa = s.signed (s.mantissa / 2 ^ e) * (2 ^ e : Nat) := by
        rw [← signed_mul, Nat.div_mul_cancel (Nat.dvd_of_mod_eq_zero hwhole)]
      rw [if_pos hwhole, Option.some.injEq, hmantissa, mul_left_inj' (by positivity)]
    · rw [if_neg hwhole]
      refine iff_of_false (by simp) fun h => hwhole ?_
      rw [← natAbs_signed s s.mantissa, h, Int.natAbs_mul, Int.natAbs_natCast, Nat.mul_mod_left]

end Scaled

namespace Binary64

variable {x : Binary64}

theorem value?_eq_intCast {n : ℤ} :
    x.value? = some (n : ℚ) ↔ (Scaled.ofBinary64? x).bind Scaled.toInt? = some n := by
  simp only [Scaled.value?_eq, Option.map_eq_some_iff, Option.bind_eq_some_iff,
    Scaled.toInt?_eq_some]

/-- The float `2 ^ 63`, one above the greatest integer of 64 bits. -/
def twoPow63 : Binary64 := ⟨0x43e0000000000000⟩

theorem toInt?_twoPow63 : (Scaled.ofBinary64? twoPow63).bind Scaled.toInt? = some (2 ^ 63) := by
  decide

theorem eq_twoPow63 (hsign : x.isNegative = false) (hexponent : x.exponentField = 1086)
    (hfraction : x.fractionField = 0) : x = twoPow63 := by
  have hbits : x.bits.toNat = twoPow63.bits.toNat := by
    have hvalue : twoPow63.bits.toNat = 1086 * 2 ^ 52 := rfl
    simp only [isNegative, exponentField, fractionField, Nat.pow_eq, decide_eq_false_iff_not,
      not_le] at hsign hexponent hfraction
    omega
  exact congrArg mk (UInt64.toNat_inj.mp hbits)

/-- A mantissa of 53 bits, the highest of them set, is shifted to `2 ^ 63` by eleven places. -/
theorem shift_eq_twoPow63 {f k : Nat} (hf : f < 2 ^ 52) (h : (2 ^ 52 + f) * 2 ^ k = 2 ^ 63) :
    k = 11 ∧ f = 0 := by
  have hk : k = 11 := by
    rcases Nat.lt_trichotomy k 11 with hlow | rfl | hhigh
    · have hpower : 2 ^ k ≤ 2 ^ 10 := Nat.pow_le_pow_right (by decide) (by omega)
      have hproduct := Nat.mul_le_mul_left (2 ^ 52 + f) hpower
      omega
    · rfl
    · have hpower : 2 ^ 12 ≤ 2 ^ k := Nat.pow_le_pow_right (by decide) hhigh
      have hproduct := Nat.mul_le_mul_left (2 ^ 52 + f) hpower
      omega
  subst hk
  omega

/-- No other float denotes the number. -/
theorem value?_eq_twoPow63 : x.value? = some (2 ^ 63) ↔ x = twoPow63 := by
  have hnumber : x.value? = some (2 ^ 63) ↔
      (Scaled.ofBinary64? x).bind Scaled.toInt? = some ((2 ^ 63 : Nat) : ℤ) := by
    rw [← value?_eq_intCast]
    norm_cast
  rw [hnumber]
  constructor
  · intro h
    obtain ⟨s, hs, hn⟩ := Option.bind_eq_some_iff.mp h
    have hfraction : x.fractionField < 2 ^ 52 := Nat.mod_lt _ (by decide)
    have hmantissa : s.mantissa < 2 ^ 53 := by
      rcases Scaled.ofBinary64?_cases hs with rfl | rfl <;> dsimp only <;> omega
    unfold Scaled.toInt? at hn
    dsimp only at hn
    split at hn
    next hexponent =>
      obtain ⟨hsign, hproduct⟩ := Scaled.signed_eq_natCast (Option.some.inj hn) (by decide)
      rcases Scaled.ofBinary64?_cases hs with rfl | rfl
      · cases hexponent
      · obtain ⟨hplaces, hzero⟩ := shift_eq_twoPow63 hfraction hproduct
        dsimp only at hplaces
        exact eq_twoPow63 hsign (by omega) hzero
    next =>
      -- a number below `2 ^ 53` cannot grow by the division
      obtain ⟨-, hn⟩ := Option.ite_none_right_eq_some.mp hn
      obtain ⟨-, hquotient⟩ := Scaled.signed_eq_natCast (Option.some.inj hn) (by decide)
      have hsmaller := Nat.div_le_self s.mantissa (Nat.pow 2 (-s.exponent).toNat)
      omega
  · rintro rfl
    exact toInt?_twoPow63

end Binary64

/-! Casts -/

namespace Value

variable {x : Binary64} {w : Width} {v : Value}

theorem wholeNumber?_eq_some {k : Int64} : wholeNumber? x = some k ↔
    ∃ n : ℤ, x.value? = some (n : ℚ) ∧ (k.toInt = n ∨ n = 2 ^ 63 ∧ k = Int64.maxValue) := by
  have hnumber : wholeNumber? x = ((Scaled.ofBinary64? x).bind Scaled.toInt?).bind fun n =>
      if Int64.minValue.toInt ≤ n ∧ n ≤ Int64.maxValue.toInt + 1 then
        some (.ofInt (min n Int64.maxValue.toInt))
      else none := by
    rw [Option.bind_assoc]
    rfl
  rw [hnumber, Option.bind_eq_some_iff]
  refine exists_congr fun n => ?_
  rw [Binary64.value?_eq_intCast]
  refine and_congr_right fun _ => ?_
  constructor
  · intro h
    obtain ⟨⟨hleast, hgreatest⟩, hk⟩ := Option.ite_none_right_eq_some.mp h
    obtain rfl := Option.some.inj hk
    rw [Int64.toInt_minValue] at hleast
    rw [Int64.toInt_maxValue] at hgreatest ⊢
    by_cases hn : n = 2 ^ 63
    · subst hn
      exact .inr ⟨rfl, rfl⟩
    · rw [min_eq_left (by omega)]
      exact .inl (Int64.toInt_ofInt_of_le hleast (by omega))
  · rintro (rfl | ⟨rfl, rfl⟩)
    · have hleast := Int64.minValue_le_toInt k
      have hgreatest := Int64.toInt_le k
      rw [if_pos ⟨hleast, by omega⟩, min_eq_left hgreatest, Int64.ofInt_toInt]
    · rfl

theorem castFloat_int32_eq_ok : castFloat x .int32 = .ok v ↔
    ∃ k m, wholeNumber? x = some k ∧ m.toInt = k.toInt ∧ v = .int32 m := by
  unfold castFloat
  cases wholeNumber? x with
  | none => simp
  | some k =>
      dsimp only
      cases hm : int32? k.toInt with
      | none =>
          have hnone (m : Int32) : m.toInt ≠ k.toInt := fun h => by
            rw [int32?_eq_some.mpr h] at hm
            cases hm
          simp [hnone]
      | some m => simp [← int32?_eq_some, hm, eq_comm]

theorem castFloat_int64_eq_ok : castFloat x .int64 = .ok v ↔
    ∃ k, wholeNumber? x = some k ∧ v = .int64 k := by
  unfold castFloat
  cases wholeNumber? x with
  | none => simp
  | some k => simp [eq_comm]

/-- What a float is cast to. -/
theorem cast_float_eq_ok : (float x).cast w.type = .ok v ↔
    (∃ n : ℤ, x.value? = some (n : ℚ) ∧ v.IsInteger w n) ∨
      w = .int64 ∧ x.value? = some (2 ^ 63) ∧ v = .int64 Int64.maxValue := by
  cases w with
  | int32 =>
      refine castFloat_int32_eq_ok.trans ?_
      constructor
      · rintro ⟨k, m, hk, hm, rfl⟩
        obtain ⟨n, hx, rfl | ⟨-, rfl⟩⟩ := wholeNumber?_eq_some.mp hk
        · exact .inl ⟨k.toInt, hx, hm ▸ .int32 m⟩
        · have hgreatest := Int32.toInt_le m
          rw [hm] at hgreatest
          exact absurd hgreatest (by decide)
      · rintro (⟨n, hx, hv⟩ | ⟨hw, -⟩)
        · cases hv with
          | int32 m =>
              have hk := wholeNumber?_eq_some.mpr ⟨m.toInt, hx, .inl (Int32.toInt_toInt64 m)⟩
              exact ⟨m.toInt64, m, hk, (Int32.toInt_toInt64 m).symm, rfl⟩
        · cases hw
  | int64 =>
      refine castFloat_int64_eq_ok.trans ?_
      constructor
      · rintro ⟨k, hk, rfl⟩
        obtain ⟨n, hx, rfl | ⟨rfl, rfl⟩⟩ := wholeNumber?_eq_some.mp hk
        · exact .inl ⟨k.toInt, hx, .int64 k⟩
        · exact .inr ⟨rfl, by exact_mod_cast hx, rfl⟩
      · rintro (⟨n, hx, hv⟩ | ⟨-, hx, rfl⟩)
        · cases hv with
          | int64 k => exact ⟨k, wholeNumber?_eq_some.mpr ⟨k.toInt, hx, .inl rfl⟩, rfl⟩
        · refine ⟨_, wholeNumber?_eq_some.mpr ⟨2 ^ 63, ?_, .inr ⟨rfl, rfl⟩⟩, rfl⟩
          exact_mod_cast hx

/-- The cast of a float gives the integer that it denotes, or there is no conversion. -/
def CastsExactly (x : Binary64) (w : Width) : Prop :=
  w.ConvertsExactly (fun n => x.value? = some (n : ℚ)) ((float x).cast w.type)

theorem cast_twoPow63 : (float .twoPow63).cast .int64 = .ok (.int64 Int64.maxValue) :=
  (cast_float_eq_ok (w := .int64)).mpr (.inr ⟨rfl, Binary64.value?_eq_twoPow63.mpr rfl, rfl⟩)

theorem not_castsExactly_twoPow63 : ¬ CastsExactly .twoPow63 .int64 := by
  intro h
  obtain ⟨n, hn, hholds⟩ := h.succeeds.mp ⟨_, cast_twoPow63⟩
  have htwoPow63 : n = 2 ^ 63 := by
    rw [Binary64.value?_eq_twoPow63.mpr rfl] at hn
    exact_mod_cast (Option.some.inj hn).symm
  rw [htwoPow63] at hholds
  exact absurd hholds (by decide)

/-- Casts of floats to integers are exact, for every float but one at one width: the float `2 ^ 63`
is out of range, and is cast to the greatest integer of 64 bits. -/
theorem cast_float_exact_iff (x : Binary64) (w : Width) :
    (CastsExactly x w ↔ ¬ (w = .int64 ∧ x = .twoPow63)) ∧
      (x = .twoPow63 ↔ x.value? = some (2 ^ 63)) ∧
      (float .twoPow63).cast .int64 = .ok (.int64 Int64.maxValue) := by
  refine ⟨⟨?_, fun hother => ?_⟩, Binary64.value?_eq_twoPow63.symm, cast_twoPow63⟩
  · rintro h ⟨rfl, rfl⟩
    exact not_castsExactly_twoPow63 h
  · refine Width.convertsExactly (fun v => ?_) fun err => (cast_converts (float x) w.type).kind
    rw [cast_float_eq_ok, Binary64.value?_eq_twoPow63]
    exact or_iff_left fun h => hother ⟨h.1, h.2.1⟩

/-- One above the greatest integer is out of range, and the cast gives that integer. -/
theorem twoPow63_cast_to_greatest :
    (float ⟨0x43e0000000000000⟩).cast .int64 = .ok (.int64 9223372036854775807) ∧
      ¬ CastsExactly ⟨0x43e0000000000000⟩ .int64 :=
  ⟨cast_twoPow63, not_castsExactly_twoPow63⟩

end Value

end Quarry
