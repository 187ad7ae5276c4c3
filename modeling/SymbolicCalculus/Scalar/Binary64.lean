import SymbolicCalculus.Scalar
import SymbolicCalculus.Decimal.Shortest

/-!
# Double-precision scalars

The numbers that formulas are computed with: binary floating point of 64 bits. Arithmetic never
fails. A division by zero, the logarithm of a negative number and the like give an infinity or
the undefined value, as the standard for floating-point arithmetic says.
-/

namespace SymbolicCalculus

namespace Binary64

/-- The value of a named constant, to the nearest double. -/
def constant : Constant → Float
  | .pi => 3.141592653589793
  | .e => 2.718281828459045

/-- The reciprocal of a number. -/
def recip (x : Float) : Float := 1 / x

/-- The value of a function at a point. A secant, cosecant or cotangent, hyperbolic or not, is the
reciprocal of the cosine, sine or tangent, and `round` takes a half away from zero. -/
def apply : Fn → Float → Float
  | .sin, x => x.sin
  | .cos, x => x.cos
  | .tan, x => x.tan
  | .sinh, x => x.sinh
  | .cosh, x => x.cosh
  | .tanh, x => x.tanh
  | .sech, x => recip x.cosh
  | .csch, x => recip x.sinh
  | .cot, x => recip x.tan
  | .coth, x => recip x.tanh
  | .csc, x => recip x.sin
  | .sec, x => recip x.cos
  | .ln, x => x.log
  | .abs, x => x.abs
  | .sqrt, x => x.sqrt
  | .round, x => x.round
  | .ceil, x => x.ceil
  | .floor, x => x.floor

/-- The mantissa field of an encoded number. -/
def mantissaField (x : Float) : Nat := x.toBits.toNat % Nat.pow 2 52

/-- The exponent field of an encoded number. -/
def exponentField (x : Float) : Nat := x.toBits.toNat / Nat.pow 2 52 % Nat.pow 2 11

/-- The sign bit of an encoded number. -/
def signBit (x : Float) : Bool := x.toBits.toNat / Nat.pow 2 63 == 1

/-- The magnitude of a finite number other than zero. An exponent field of zero marks the
subnormal numbers, which have no hidden leading bit. -/
def binaryNumber (x : Float) : BinaryNumber :=
  let m := mantissaField x
  match exponentField x with
  | 0 => ⟨m, -1074, false⟩
  -- below a power of two the numbers lie closer, but not where the subnormal ones begin
  | e + 1 => ⟨Nat.pow 2 52 + m, (e : Int) - 1074, m == 0 && e != 0⟩

/-- The notation of a double: its sign, then the shortest digits that are read back as it, written
positionally. Zero keeps its sign, and the undefined value has none. -/
def toText (x : Float) : String :=
  let magnitude :=
    if x.isInf then "inf"
    else if x == 0 then "0"
    else (binaryNumber x).decimal.toText
  -- the sign bit of an undefined value means nothing
  if x.isNaN then "NaN"
  else if signBit x then "-" ++ magnitude
  else magnitude

end Binary64

instance : Scalar Float where
  zero := 0
  one := 1
  pow := Float.pow
  isNeg x := x < 0
  isNaN := Float.isNaN
  isFinite := Float.isFinite
  nan := 0 / 0
  constant := Binary64.constant
  apply := Binary64.apply

instance : Encoding Float where
  toBits := Float.toBits

instance : Literal Float where
  ofDecimal digits places := Float.ofScientific digits true places
  toText := Binary64.toText

end SymbolicCalculus
