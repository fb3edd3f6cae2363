/-!
64-bit floating point numbers, told apart by their bits: the two zeros differ, and so do a NaN and
its negation. Arithmetic rounds to the nearest number.
-/
namespace Quarry

/-- A floating point number as a sign bit, 11 bits of exponent and 52 bits of fraction. -/
structure Binary64 where
  bits : UInt64
  deriving DecidableEq

namespace Binary64

def infinity : Binary64 := ⟨0x7ff0000000000000⟩

def nan : Binary64 := ⟨0x7ff8000000000000⟩

def isNegative (x : Binary64) : Bool := Nat.pow 2 63 ≤ x.bits.toNat

def exponentField (x : Binary64) : Nat := x.bits.toNat / Nat.pow 2 52 % Nat.pow 2 11

def fractionField (x : Binary64) : Nat := x.bits.toNat % Nat.pow 2 52

def isNaN (x : Binary64) : Bool := x.exponentField = 2047 ∧ x.fractionField ≠ 0

/-- Changes the sign bit only, also that of a NaN. -/
instance : Neg Binary64 where
  neg x := ⟨x.bits ^^^ 0x8000000000000000⟩

/-- The number for comparison and arithmetic, where all NaN are one. -/
def toFloat (x : Binary64) : Float := Float.ofBits x.bits

/-- The result of an operation on numbers; one that has none gives the NaN with its sign set. -/
def ofFloat (x : Float) : Binary64 := if x.isNaN then -nan else ⟨x.toBits⟩

/-- The number nearest to an integer. -/
def ofInt (n : Int) : Binary64 := ofFloat (Float.ofInt n)

/-- Sets the bit that tells a quiet NaN from a signalling one. -/
def quiet (x : Binary64) : Binary64 := ⟨x.bits ||| 0x0008000000000000⟩

/-- Extends an operation on numbers: the first operand that is a NaN is the result. -/
def combine (op : Binary64 → Binary64 → Binary64) (x y : Binary64) : Binary64 :=
  if x.isNaN then x.quiet
  else if y.isNaN then y.quiet
  else op x y

/-- An operation that rounds its exact result. -/
def rounded (op : Float → Float → Float) : Binary64 → Binary64 → Binary64 :=
  combine fun x y => ofFloat (op x.toFloat y.toFloat)

instance : Add Binary64 := ⟨rounded (· + ·)⟩

instance : Sub Binary64 := ⟨rounded (· - ·)⟩

instance : Mul Binary64 := ⟨rounded (· * ·)⟩

instance : Div Binary64 := ⟨rounded (· / ·)⟩

end Binary64

end Quarry
