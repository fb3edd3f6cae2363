import Quarry.Number.Binary64
/-!
Exact values of 64-bit floating point numbers. A finite number is a whole mantissa times a power
of two, and the remainder and the whole number read from it are computed on those.
-/
namespace Quarry

/-- The number `± mantissa * 2 ^ exponent`; zero too has a sign. -/
structure Scaled where
  negative : Bool
  mantissa : Nat
  exponent : Int
  deriving DecidableEq, Repr

namespace Scaled

/-- The value that the bits denote; infinities and NaN have none. -/
def ofBinary64? (x : Binary64) : Option Scaled :=
  if x.exponentField = 2047 then none
  else if x.exponentField = 0 then some ⟨x.isNegative, x.fractionField, -1074⟩
  else some ⟨x.isNegative, Nat.pow 2 52 + x.fractionField, (x.exponentField : Int) - 1075⟩

/-- The power of two `2 ^ e` for `-1074 ≤ e ≤ 1023`. -/
def powerOfTwo (e : Int) : Float :=
  if e < -1022 then .ofBits (UInt64.ofNat (Nat.pow 2 (e + 1074).toNat))
  else .ofBits (UInt64.ofNat ((e + 1023).toNat * Nat.pow 2 52))

/-- The number with this value, if there is one; the product is then exact. -/
def toBinary64 (s : Scaled) : Binary64 :=
  let size := Binary64.ofFloat (Float.ofNat s.mantissa * powerOfTwo s.exponent)
  if s.negative then -size else size

def signed (s : Scaled) (n : Nat) : Int := if s.negative then -n else n

/-- The value as an integer, unless it has a fractional part. -/
def toInt? (s : Scaled) : Option Int :=
  if 0 ≤ s.exponent then some (s.signed (s.mantissa * Nat.pow 2 s.exponent.toNat))
  else
    let unit := Nat.pow 2 (-s.exponent).toNat
    if s.mantissa % unit = 0 then some (s.signed (s.mantissa / unit)) else none

/-- The remainder of the division whose quotient is cut off at the point; it has the sign of the
dividend. -/
def remainder (s t : Scaled) : Scaled :=
  let exponent := min s.exponent t.exponent
  let units (u : Scaled) : Nat := u.mantissa * Nat.pow 2 (u.exponent - exponent).toNat
  ⟨s.negative, units s % units t, exponent⟩

end Scaled

/-- The remainder of a truncating division, exact; there is none by zero or of an infinity. -/
instance : Mod Binary64 where
  mod := Binary64.combine fun x y =>
    match Scaled.ofBinary64? x, Scaled.ofBinary64? y with
    | some s, some t => if t.mantissa = 0 then -.nan else (s.remainder t).toBinary64
    | some _, none => x
    | none, _ => -.nan

end Quarry
