import SymbolicCalculus.Expr.Basic

/-!
# Laws of scalars

Rounding spoils most laws of arithmetic, but not all. What holds of the floating-point numbers as it
does of the real ones is collected here, in three steps.

* `UnitLaws`: zero and one are neutral, the sign can be taken off and put back, and `Scalar.same` is
  an equivalence that signs respect.
* `TestLaws`: numbers that are the same pass the same tests, and the sign decides whether a number
  other than zero or its negative is the one below zero.
* `CongruenceLaws`: arithmetic on numbers that are the same gives numbers that are the same, but for
  a division by zero and a power that is not finite, which tell the two zeros apart.

Equations are up to `Scalar.same`, because the sum of zero and minus zero is zero.
-/

namespace SymbolicCalculus

namespace Scalar

/-- The laws of zero, one and signs. -/
class UnitLaws (K : Type) [Scalar K] : Prop where
  same_refl : ∀ v : K, same v v
  same_symm : ∀ {v w : K}, same v w → same w v
  same_trans : ∀ {u v w : K}, same u v → same v w → same u w
  one_beq_one : (1 : K) == 1
  zero_beq_zero : (0 : K) == 0
  one_beq_zero : ((1 : K) == 0) = false
  zero_add : ∀ v : K, same (0 + v) v
  zero_sub : ∀ v : K, same (0 - v) (-v)
  one_mul : ∀ v : K, same (1 * v) v
  neg_neg : ∀ v : K, same (-(-v)) v
  neg_congr : ∀ {v w : K}, same v w → same (-v) (-w)
  isNeg_congr : ∀ {v w : K}, same v w → isNeg v = isNeg w

/-- The laws of the tests that numbers are put to. -/
class TestLaws (K : Type) [Scalar K] : Prop extends UnitLaws K where
  beq_congr : ∀ {v w : K}, same v w → ∀ u : K, (v == u) = (w == u)
  isNaN_congr : ∀ {v w : K}, same v w → isNaN v = isNaN w
  isNeg_neg : ∀ {v : K}, isNeg v → isNeg (-v) = false
  neg_beq_zero : ∀ v : K, (-v == 0) = (v == 0)

/-- The laws of arithmetic on numbers that are the same. -/
class CongruenceLaws (K : Type) [Scalar K] : Prop extends TestLaws K where
  add_congr : ∀ {v w v' w' : K}, same v v' → same w w' → same (v + w) (v' + w')
  sub_congr : ∀ {v w v' w' : K}, same v v' → same w w' → same (v - w) (v' - w')
  mul_congr : ∀ {v w v' w' : K}, same v v' → same w w' → same (v * w) (v' * w')
  div_congr : ∀ {v w v' w' : K}, same v v' → same w w' → (w == 0) = false →
    same (v / w) (v' / w')
  isFinite_pow_congr : ∀ {v w v' w' : K}, same v v' → same w w' →
    isFinite (pow v w) = isFinite (pow v' w')
  pow_congr : ∀ {v w v' w' : K}, same v v' → same w w' → isFinite (pow v w) →
    same (pow v w) (pow v' w')

variable {K : Type} [Scalar K]

/-- Numerically equal numbers are the same. -/
theorem same_of_beq {v w : K} (h : v == w) : same v w := by
  simp [same, h]

section Lists

variable [UnitLaws K]

theorem same_product_singleton (v : K) : same (product [v]) v := UnitLaws.one_mul v

/-- The total of a single addend is its value with its sign. -/
theorem same_total_singleton (v : K) (s : Bool) :
    same (Addend.total [⟨v, s⟩]) (if s then -v else v) := by
  cases s with
  | false => exact UnitLaws.zero_add v
  | true => exact UnitLaws.zero_sub v

end Lists

end Scalar

end SymbolicCalculus
