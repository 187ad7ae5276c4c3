import SymbolicCalculus.Scalar.Binary64

/-!
# Doubles as patterns of bits

A double is stored in 64 bits: its sign in the first, its exponent in the next 11 and its fraction
in the last 52. Zero has two patterns, one for each sign. Whatever has all bits of its exponent set
and a fraction other than zero stands for no number, and there are 2 ^ 53 - 2 of these patterns.
`Float` takes them all for one value, so with it alone one does not see whether a definition treats
them alike. A `Pattern` keeps its bits.

Equality and the test for undefined values are read off the fields. Everything else is what it is
for the doubles that the patterns stand for, but a sign is changed or taken off without a look at
the other bits, also where they stand for no number.
-/

namespace SymbolicCalculus

/-- A double as it is stored. -/
structure Pattern where
  bits : UInt64

namespace Pattern

/-- The fraction field: the bits of the mantissa after the leading one, which is not stored. -/
def fraction (p : Pattern) : Nat := p.bits.toNat % Nat.pow 2 52

/-- The exponent field. -/
def exponent (p : Pattern) : Nat := p.bits.toNat / Nat.pow 2 52 % Nat.pow 2 11

/-- The pattern stands for no number. -/
def isNaN (p : Pattern) : Bool := p.exponent == 2047 && p.fraction != 0

/-- The pattern is one of the two zeros. -/
def isZero (p : Pattern) : Bool := p.exponent == 0 && p.fraction == 0

/-- Numerical equality. No pattern that stands for no number is equal to any, the zeros are equal,
and other patterns are equal if their bits are. -/
def equal (p q : Pattern) : Bool :=
  !p.isNaN && !q.isNaN && (p.bits == q.bits || (p.isZero && q.isZero))

/-- The double that a pattern stands for. -/
def toFloat (p : Pattern) : Float := Float.ofBits p.bits

/-- The pattern that a double is stored as. -/
def ofFloat (x : Float) : Pattern := ⟨x.toBits⟩

/-- The pattern with the other sign. -/
def negated (p : Pattern) : Pattern := ⟨p.bits ^^^ 0x8000000000000000⟩

/-- The pattern without its sign. -/
def absolute (p : Pattern) : Pattern := ⟨p.bits &&& 0x7FFFFFFFFFFFFFFF⟩

/-- The value of a function at a pattern. -/
def apply : Fn → Pattern → Pattern
  | .abs, p => p.absolute
  | f, p => ofFloat (Binary64.apply f p.toFloat)

end Pattern

instance : Scalar Pattern where
  zero := ⟨0⟩
  one := .ofFloat 1
  add p q := .ofFloat (p.toFloat + q.toFloat)
  sub p q := .ofFloat (p.toFloat - q.toFloat)
  mul p q := .ofFloat (p.toFloat * q.toFloat)
  div p q := .ofFloat (p.toFloat / q.toFloat)
  neg := Pattern.negated
  beq := Pattern.equal
  pow p q := .ofFloat (p.toFloat.pow q.toFloat)
  isNeg p := Scalar.isNeg p.toFloat
  isNaN := Pattern.isNaN
  isFinite p := p.toFloat.isFinite
  nan := ⟨0x7FF8000000000000⟩
  constant c := .ofFloat (Binary64.constant c)
  apply := Pattern.apply

instance : Encoding Pattern where
  toBits := Pattern.bits

end SymbolicCalculus
