/-!
# Shortest decimal notation

Every finite binary floating-point number is read back from the decimals of a whole interval
around it. Its shortest notation is taken from the coarsest grid of multiples of a power of ten
that has a point in that interval; of two such points on that grid the nearer one is taken, and
of two equally near ones the greater.

`BinaryNumber` holds a positive binary number exactly, as `mantissa * 2 ^ exponent`, together with
how near its lower neighbour is. `BinaryNumber.decimal` finds its shortest decimal in exact
arithmetic on natural numbers, and `Decimal.toText` writes a decimal positionally: all its digits,
no exponent.
-/

namespace SymbolicCalculus

/-- The decimal number `digits * 10 ^ exponent`. -/
structure Decimal where
  /-- The digits, as one natural number. -/
  digits : Nat
  /-- The place value of the last digit. -/
  exponent : Int
  deriving DecidableEq

namespace Decimal

/-- The decimal digits of a natural number, most significant first. -/
def digitsOf (n : Nat) : List Char := Nat.toDigits 10 n

/-- Positional notation: zeros fill the places between the digits and the point, and a number
below one has a single zero before the point. -/
def toChars (d : Decimal) : List Char :=
  match d.exponent with
  | .ofNat zeros => digitsOf d.digits ++ List.replicate zeros '0'
  | .negSucc k =>
    let places := k + 1
    let ds := digitsOf d.digits
    -- at least one digit comes before the point
    let padded := List.replicate (places + 1 - ds.length) '0' ++ ds
    let whole := padded.length - places
    padded.take whole ++ '.' :: padded.drop whole

/-- Positional notation as text. -/
def toText (d : Decimal) : String := String.ofList d.toChars

end Decimal

/-- A positive binary number `mantissa * 2 ^ exponent`, with what is needed to know which
decimals are read as it. -/
structure BinaryNumber where
  /-- The whole number of units. -/
  mantissa : Nat
  /-- The binary exponent of the unit. -/
  exponent : Int
  /-- The next number below is only half a unit away, because it has a smaller exponent. -/
  closeBelow : Bool
  deriving DecidableEq

namespace BinaryNumber

/-- The number and the two ends of the interval of reals that are rounded to it, in quarters of a
unit. -/
structure Quarters where
  low : Nat
  value : Nat
  high : Nat

/-- Halfway to either neighbour lies half a unit away, or a quarter below a power of two. -/
def quarters (b : BinaryNumber) : Quarters :=
  let value := 4 * b.mantissa
  ⟨value - (if b.closeBelow then 1 else 2), value, value + 2⟩

/-- The ends of the interval are read as the number when its mantissa is even, since a tie in
reading goes to the even mantissa. -/
def endsIncluded (b : BinaryNumber) : Bool := b.mantissa % 2 == 0

/-- Two whole numbers `(a, b)` such that a quarter of a unit is `a / b` steps of the grid of
multiples of `10 ^ step`. -/
def quarterInSteps (b : BinaryNumber) (step : Int) : Nat × Nat :=
  let twos := b.exponent - 2
  (Nat.pow 2 twos.toNat * Nat.pow 10 (-step).toNat,
    Nat.pow 2 (-twos).toNat * Nat.pow 10 step.toNat)

/-- The point of the grid of multiples of `10 ^ step` that stands for the number, if one does.
Only the two points next to the number can be nearest, so only they are looked at. -/
def onGrid? (b : BinaryNumber) (step : Int) : Option Nat :=
  let (scale, unit) := b.quarterInSteps step
  let q := b.quarters
  let value := q.value * scale
  let below := value / unit
  let readsBack (n : Nat) : Bool :=
    if b.endsIncluded then q.low * scale ≤ n * unit && n * unit ≤ q.high * scale
    else q.low * scale < n * unit && n * unit < q.high * scale
  -- zero is a point of every grid but never the notation of a positive number
  match readsBack below && below != 0, readsBack (below + 1) with
  | true, true => if 2 * value < (2 * below + 1) * unit then some below else some (below + 1)
  | true, false => some below
  | false, true => some (below + 1)
  | false, false => none

/-- All the digits of the number: a negative power of two is as many places of five. -/
def exact (b : BinaryNumber) : Decimal :=
  ⟨b.mantissa * Nat.pow 2 b.exponent.toNat * Nat.pow 5 (-b.exponent).toNat, min b.exponent 0⟩

/-- The decimal on the first of the next `tries` grids, from `10 ^ step` downwards, that has a
point for the number. -/
def search (b : BinaryNumber) : (tries : Nat) → (step : Int) → Decimal
  | 0, _ => b.exact
  | tries + 1, step =>
    match b.onGrid? step with
    | some digits => ⟨digits, step⟩
    | none => search b tries (step - 1)

/-- A power of ten with an exponent above that of the number's leading decimal digit, since the
logarithm of two to base ten lies between `30 / 100` and `31 / 100`. -/
def topStep (b : BinaryNumber) : Int :=
  let bits : Int := (Nat.log2 b.mantissa : Int) + 1 + b.exponent
  if bits ≥ 0 then bits * 31 / 100 + 1 else bits * 30 / 100 + 1

/-- The shortest decimal that is read as the number. Seventeen digits always suffice in double
precision, and `topStep` is at most a dozen places too high, so the grids never run out. -/
def decimal (b : BinaryNumber) : Decimal := b.search 48 b.topStep

end BinaryNumber

end SymbolicCalculus
