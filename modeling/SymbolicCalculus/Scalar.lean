import SymbolicCalculus.Name

/-!
# Scalars

Formulas are built over a type `K` of numbers. `Scalar K` collects what evaluation and
simplification ask of it: the arithmetic, the tests they branch on, and the meaning of the constants
and of the functions. Nothing is assumed of the operations, so one definition of each rule serves
the binary floating-point numbers that are computed with and the real numbers that the rules are
about.

Equality of scalars comes in two grades. `a == b` is numeric equality, under which a value that
is not a number differs from itself. `Scalar.same` takes all such values to be alike; it is the
grade on which two trees are compared, because a comparison of trees has to be reflexive. Numbers
that are the same have the same code (`Scalar.code`), by which trees are hashed.
-/

namespace SymbolicCalculus

/-- A type of numbers to build formulas over. -/
class Scalar (K : Type) extends Zero K, One K, Add K, Sub K, Mul K, Div K, Neg K, BEq K where
  /-- `pow a b` is `a` raised to the power `b`. -/
  pow : K → K → K
  /-- The number is less than zero. -/
  isNeg : K → Bool
  /-- The value stands for no number at all, such as the quotient of zero by zero. -/
  isNaN : K → Bool
  /-- The value is neither infinite nor undefined. -/
  isFinite : K → Bool
  /-- A value that stands for no number. -/
  nan : K
  constant : Constant → K
  apply : Fn → K → K

/-- Numbers that can be read from decimal notation and written in it. -/
class Literal (K : Type) where
  /-- `ofDecimal digits places` is the number nearest to `digits / 10 ^ places`. -/
  ofDecimal (digits places : Nat) : K
  /-- The notation of a number. -/
  toText : K → String

/-- Numbers that are stored in 64 bits. -/
class Encoding (K : Type) where
  /-- The bits that a number is stored in. -/
  toBits : K → UInt64

namespace Scalar

variable {K : Type} [Scalar K]

/-- The number two. -/
def two : K := 1 + 1

/-- The number minus one. -/
def minusOne : K := -1

/-- Equality of scalars inside trees: numerically equal, or both undefined. -/
def same (a b : K) : Bool := a == b || (isNaN a && isNaN b)

/-- The code of a number for hashing: its bits, but with one pattern for both zeros and one for all
undefined values. -/
def code [Encoding K] (a : K) : UInt64 :=
  if isNaN a then 0x7FF8000000000000 else if a == 0 then 0 else Encoding.toBits a

end Scalar

end SymbolicCalculus
