import Quarry.Number.Scaled
/-!
Decimal text of numbers. A float is written with the fewest digits that read back as the same
float, always positionally; integers and floats are read by the grammars below.
-/
namespace Quarry.Decimal

/-- The value of a run of decimal digits. -/
def ofDigits (ds : List Char) : Nat := ds.foldl (fun n c => 10 * n + (c.toNat - '0'.toNat)) 0

/-- The decimal digits of a number, the highest first. -/
def digits (n : Nat) : List Char := Nat.toDigits 10 n

def ofInt (n : Int) : String :=
  if n < 0 then String.ofList ('-' :: digits n.natAbs) else String.ofList (digits n.natAbs)

/-! Shortest digits -/

/-- The decimals that read as a given float, in units of `2 ^ exponent`: from `low` to `high`, the
ends among them if `closed`, with the float itself at `centre`. -/
structure Interval where
  low : Nat
  centre : Nat
  high : Nat
  exponent : Int
  closed : Bool

/-- Half the gap to each neighbour belongs to a float; below a power of two the gap is halved. -/
def Interval.ofScaled (s : Scaled) : Interval :=
  let below := if s.mantissa = Nat.pow 2 52 ∧ -1074 < s.exponent then 1 else 2
  ⟨4 * s.mantissa - below, 4 * s.mantissa, 4 * s.mantissa + 2, s.exponent - 2, s.mantissa % 2 = 0⟩

/-- The factors that bring units of `2 ^ exponent` and of `10 ^ place` to a common unit. -/
def Interval.factors (i : Interval) (place : Int) : Nat × Nat :=
  (Nat.pow 2 i.exponent.toNat * Nat.pow 10 (-place).toNat,
    Nat.pow 10 place.toNat * Nat.pow 2 (-i.exponent).toNat)

/-- Whether `d * 10 ^ place` reads as the float. -/
def Interval.holds (i : Interval) (d : Nat) (place : Int) : Bool :=
  let (a, b) := i.factors place
  if i.closed then i.low * a ≤ d * b ∧ d * b ≤ i.high * a
  else i.low * a < d * b ∧ d * b < i.high * a

/-- The number of digits before the point, negative if zeros follow it: the least `e` with
`centre < 10 ^ e`. -/
def Interval.magnitude (i : Interval) : Int :=
  let estimate := Int.fdiv (((i.centre.log2 : Int) + i.exponent) * 30103) 100000 - 1
  let fits (e : Int) : Bool :=
    let (a, b) := i.factors e
    i.centre * a < b
  (([0, 1, 2, 3] : List Int).map (estimate + ·)).find? fits |>.getD estimate

/-- The decimal with digits down to `place` nearest to the float, if one reads as the float; of two
that are equally near, the greater. -/
def Interval.nearest? (i : Interval) (place : Int) : Option Nat :=
  let (a, b) := i.factors place
  let below := i.centre * a / b
  let rest := i.centre * a % b
  match i.holds below place, i.holds (below + 1) place with
  | true, true => some (if 2 * rest < b then below else below + 1)
  | true, false => some below
  | false, true => some (below + 1)
  | false, false => none

/-- Seventeen digits always suffice, so the last entry is never wanted. -/
def Interval.shortest (i : Interval) : Nat × Int :=
  let places := (List.range 17).map fun n : Nat => i.magnitude - (n + 1 : Nat)
  (places.findSome? fun place => (i.nearest? place).map (·, place)).getD (0, 0)

/-- Writes `n * 10 ^ place` without an exponent and without needless zeros. -/
def positional (n : Nat) (place : Int) : List Char :=
  let ds := digits n
  if 0 ≤ place then ds ++ List.replicate place.toNat '0'
  else
    let places := (-place).toNat
    let padded := List.replicate (places + 1 - ds.length) '0' ++ ds
    let whole := padded.take (padded.length - places)
    let fraction := (padded.drop (padded.length - places)).reverse.dropWhile (· = '0') |>.reverse
    if fraction.isEmpty then whole else whole ++ '.' :: fraction

def ofBinary64 (x : Binary64) : String :=
  match Scaled.ofBinary64? x with
  | some s =>
    let size := if s.mantissa = 0 then ['0']
      else
        let (n, place) := (Interval.ofScaled s).shortest
        positional n place
    String.ofList (if s.negative then '-' :: size else size)
  | none => if x.isNaN then "NaN" else if x.isNegative then "-inf" else "inf"

/-! Reading -/

/-- Splits off an optional sign; true means negative. -/
def splitSign : List Char → Bool × List Char
  | '-' :: cs => (true, cs)
  | '+' :: cs => (false, cs)
  | cs => (false, cs)

/-- Reads an optional sign and one or more digits. -/
def toInt? (cs : List Char) : Option Int :=
  let (negative, ds) := splitSign cs
  if ds.isEmpty ∨ ¬ ds.all Char.isDigit then none
  else some (if negative then -(ofDigits ds : Int) else ofDigits ds)

/-- Reads the exponent that may follow the digits of a float. -/
def exponent? : List Char → Option Int
  | [] => some 0
  | c :: cs => if c = 'e' ∨ c = 'E' then toInt? cs else none

/-- The float nearest to `n * 10 ^ place`; the bounds keep the powers of ten small. -/
def nearest (n : Nat) (place : Int) : Binary64 :=
  let magnitude := ((digits n).length : Int) + place
  if n = 0 ∨ magnitude < -330 then .ofInt 0
  else if 330 < magnitude then .infinity
  else .ofFloat (Float.ofScientific n (place < 0) place.natAbs)

/-- Reads digits with an optional point among or beside them, and an optional exponent. -/
def unsigned? (cs : List Char) : Option Binary64 :=
  let (whole, rest) := cs.span Char.isDigit
  let (fraction, rest) := match rest with
    | '.' :: rest => rest.span Char.isDigit
    | rest => ([], rest)
  if whole.isEmpty ∧ fraction.isEmpty then none
  else do
    let exponent ← exponent? rest
    return nearest (ofDigits (whole ++ fraction)) (exponent - fraction.length)

/-- Reads a float; the words for infinity and for no number stand in any case. -/
def toBinary64? (cs : List Char) : Option Binary64 :=
  let (negative, cs) := splitSign cs
  let size := match String.ofList (cs.map Char.toLower) with
    | "inf" | "infinity" => some .infinity
    | "nan" => some .nan
    | _ => unsigned? cs
  if negative then size.map (- ·) else size

end Quarry.Decimal
