import SymbolicCalculus.Decimal.Numeral
import SymbolicCalculus.Scalar

/-!
# Laws of the notation of numbers

What reading a printed number relies on. The notation of a negative number is that of its magnitude
with a sign before it, and the numerals `0` and `1` are read as zero and one. No numeral is read as
a negative number or as minus zero, whose sign no numeral shows.
-/

namespace SymbolicCalculus

namespace Scalar

variable {K : Type} [Scalar K]

/-- The number is zero, and its reciprocal is below zero. -/
def IsNegativeZero (v : K) : Prop := (v == 0) = true ∧ isNeg (1 / v) = true

instance (v : K) : Decidable (IsNegativeZero v) := inferInstanceAs (Decidable (_ ∧ _))

/-- The number shows no sign and stands for a number. -/
structure IsPlain (v : K) : Prop where
  isNeg_eq : isNeg v = false
  not_isNegativeZero : ¬ IsNegativeZero v
  isNaN_eq : isNaN v = false

/-- The number with its sign taken off. -/
def magnitude (v : K) : K := if isNeg v then -v else v

end Scalar

namespace Literal

/-- The notation of the number is a numeral that is read as the number. -/
def ReadsBack {K : Type} [Literal K] (v : K) : Prop :=
  ∃ digits places, Decimal.read? (toText v).toList = some (digits, places) ∧
    ofDecimal digits places = v

/-- The laws of the notation of numbers. -/
class Laws (K : Type) [Scalar K] [Literal K] : Prop where
  ofDecimal_zero : ofDecimal 0 0 = (0 : K)
  ofDecimal_one : ofDecimal 1 0 = (1 : K)
  isNeg_ofDecimal : ∀ digits places, Scalar.isNeg (ofDecimal digits places : K) = false
  not_isNegativeZero_ofDecimal : ∀ digits places,
    ¬ Scalar.IsNegativeZero (ofDecimal digits places : K)
  toText_of_isNeg : ∀ {v : K}, Scalar.isNeg v → toText v = "-" ++ toText (-v)

end Literal

end SymbolicCalculus
