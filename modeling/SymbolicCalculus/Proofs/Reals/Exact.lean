import SymbolicCalculus.Proofs.Scalar.Binary64
import SymbolicCalculus.Proofs.Reals.Value
import SymbolicCalculus.Proofs.Expr.Mapping
import SymbolicCalculus.Proofs.Expr.Written

/-!
# Exact values

Scalars that stand for real numbers give every expression an exact value: that of the expression
with the real numbers in place of the scalars. `ExactValues` says what real numbers these are, and
`Binary64.exact` what they are for doubles. Normalization does not change the exact value, and
neither does writing the expression differently (`value_written`).
-/

namespace SymbolicCalculus

variable {K L : Type}

/-- What real numbers the scalars stand for. It makes no difference what a scalar that stands for no
real number is taken for. -/
structure ExactValues (K : Type) [Scalar K] where
  /-- The real number that a scalar stands for. -/
  toReal : K → ℝ
  zero : toReal 0 = 0
  one : toReal 1 = 1
  minusOne : toReal Scalar.minusOne = -1
  neg : ∀ v, Scalar.isNeg v = true → toReal (-v) = -toReal v

namespace ExactValues

open SymbolicCalculus.Expr

variable [Scalar K] (ν : ExactValues K) (σ : String → ℝ)

/-- The expression is defined where its variables have the real values `σ`. -/
def Defined (e : Expr K) : Prop := (e.mapNumbers ν.toReal).Defined σ

/-- The exact value of an expression whose variables have the real values `σ`. -/
noncomputable def value (e : Expr K) : ℝ := (e.mapNumbers ν.toReal).value σ

variable {ν σ}

/-- Normal forms are taken in the same way of any numbers, so they keep the exact value. -/
theorem value_normalize (e : Expr K) : ν.value σ e.normalize = ν.value σ e := by
  rw [value, mapNumbers_normalize, Expr.value_normalize, value]

theorem defined_normalize (e : Expr K) : ν.Defined σ e.normalize ↔ ν.Defined σ e := by
  rw [Defined, mapNumbers_normalize, Expr.defined_normalize, Defined]

/-- If the first addend is subtracted, it is written as an added product with minus one. -/
theorem addendsValue_addFirst (as : List (Addend (Expr K))) :
    addendsValue σ (mapAddends ν.toReal (addFirst as)) =
      addendsValue σ (mapAddends ν.toReal as) := by
  unfold addFirst
  split
  · simp [mapAddends, mapNumbers, mapFactors, Addend.plus, ν.minusOne]
  · rfl

/-- Writing the first addend as added brings no divisor, power or call. -/
theorem addendsDefined_addFirst (as : List (Addend (Expr K))) :
    AddendsDefined σ (mapAddends ν.toReal (addFirst as)) ↔
      AddendsDefined σ (mapAddends ν.toReal as) := by
  unfold addFirst
  split
  · simp [mapAddends, mapNumbers, mapFactors, Addend.plus]
  · rfl

mutual

/-- An expression as it is written has the exact value of the expression. -/
theorem value_written (e : Expr K) : ν.value σ e.written = ν.value σ e := by
  match e with
  | .number v =>
    rw [written]
    split
    -- a negative number is written as a product of minus one and its magnitude
    · next hneg => simp [value, mapNumbers, mapFactors, ν.minusOne, ν.neg v hneg]
    · rfl
  | .constant _ | .var _ => rfl
  | .sum as =>
    -- what is collapsed is a sum with its addends written
    rw [written, value, mapNumbers_collapse _ ν.zero ν.one, value_collapse]
    exact (addendsValue_addFirst _).trans (addendsValue_written as)
  | .product es =>
    rw [written, value, mapNumbers_collapse _ ν.zero ν.one, value_collapse]
    exact factorsValue_written es
  | .quotient a b => exact congrArg₂ (· / ·) (value_written a) (value_written b)
  | .power a b => exact congrArg₂ (· ^ ·) (value_written a) (value_written b)
  | .call g a => exact congrArg (Scalar.apply g) (value_written a)

/-- The addends are written one by one, with their signs. -/
theorem addendsValue_written (as : List (Addend (Expr K))) :
    addendsValue σ (mapAddends ν.toReal (writtenAddends as)) =
      addendsValue σ (mapAddends ν.toReal as) := by
  match as with
  | [] => rfl
  | ⟨e, s⟩ :: as =>
    have he : (e.written.mapNumbers ν.toReal).value σ = (e.mapNumbers ν.toReal).value σ :=
      value_written e
    simp only [writtenAddends, mapAddends, addendsValue, he, addendsValue_written as]

/-- The factors are written one by one. -/
theorem factorsValue_written (es : List (Expr K)) :
    factorsValue σ (mapFactors ν.toReal (writtenFactors es)) =
      factorsValue σ (mapFactors ν.toReal es) := by
  match es with
  | [] => rfl
  | e :: es => exact congrArg₂ (· * ·) (value_written e) (factorsValue_written es)

end

mutual

/-- An expression as it is written is defined where the expression is. -/
theorem defined_written (e : Expr K) : ν.Defined σ e.written ↔ ν.Defined σ e := by
  match e with
  | .number v =>
    rw [written]
    split
    · simp [Defined, mapNumbers, mapFactors]
    · rfl
  | .constant _ | .var _ => rfl
  | .sum as =>
    rw [written, Defined, mapNumbers_collapse _ ν.zero ν.one, defined_collapse]
    exact (addendsDefined_addFirst _).trans (addendsDefined_written as)
  | .product es =>
    rw [written, Defined, mapNumbers_collapse _ ν.zero ν.one, defined_collapse]
    exact factorsDefined_written es
  | .quotient a b =>
    -- the divisor has to keep its value too, to be other than zero
    have hvalue : (b.written.mapNumbers ν.toReal).value σ = (b.mapNumbers ν.toReal).value σ :=
      value_written b
    have ha : (a.written.mapNumbers ν.toReal).Defined σ ↔ _ := defined_written a
    have hb : (b.written.mapNumbers ν.toReal).Defined σ ↔ _ := defined_written b
    simp only [written, Defined, mapNumbers, Expr.Defined, ha, hb, hvalue]
  | .power a b =>
    have hbase : (a.written.mapNumbers ν.toReal).value σ = (a.mapNumbers ν.toReal).value σ :=
      value_written a
    have hexponent : (b.written.mapNumbers ν.toReal).value σ = (b.mapNumbers ν.toReal).value σ :=
      value_written b
    have ha : (a.written.mapNumbers ν.toReal).Defined σ ↔ _ := defined_written a
    have hb : (b.written.mapNumbers ν.toReal).Defined σ ↔ _ := defined_written b
    simp only [written, Defined, mapNumbers, Expr.Defined, ha, hb, hbase, hexponent]
  | .call g a =>
    have hvalue : (a.written.mapNumbers ν.toReal).value σ = (a.mapNumbers ν.toReal).value σ :=
      value_written a
    have ha : (a.written.mapNumbers ν.toReal).Defined σ ↔ _ := defined_written a
    simp only [written, Defined, mapNumbers, Expr.Defined, ha, hvalue]

theorem addendsDefined_written (as : List (Addend (Expr K))) :
    AddendsDefined σ (mapAddends ν.toReal (writtenAddends as)) ↔
      AddendsDefined σ (mapAddends ν.toReal as) := by
  match as with
  | [] => rfl
  | ⟨e, _⟩ :: as => exact and_congr (defined_written e) (addendsDefined_written as)

theorem factorsDefined_written (es : List (Expr K)) :
    FactorsDefined σ (mapFactors ν.toReal (writtenFactors es)) ↔
      FactorsDefined σ (mapFactors ν.toReal es) := by
  match es with
  | [] => rfl
  | e :: es => exact and_congr (defined_written e) (factorsDefined_written es)

end

end ExactValues

/-! ## Doubles -/

namespace Binary64

open Float.Model

/-- The real number that is seen, if one is. -/
noncomputable def viewToReal : UnpackedFloat → ℝ
  | .finite .positive m e _ => m * ((2 : ℕ) : ℝ) ^ e
  | .finite .negative m e _ => -(m * ((2 : ℕ) : ℝ) ^ e)
  | _ => 0

/-- The sign of a double is that of the real number that it stands for. -/
theorem viewToReal_neg (u : UnpackedFloat) : viewToReal u.neg = -viewToReal u := by
  cases u with
  | notANumber | infinity s | zero s => exact neg_zero.symm
  | finite s m e hm =>
      cases s with
      | positive => rfl
      | negative => exact (neg_neg _).symm

theorem viewToReal_one : viewToReal (view 1) = 1 := by
  rw [view_one]
  simp only [viewToReal]
  norm_num

/-- A finite double stands for its mantissa times a power of two. -/
noncomputable def exact : ExactValues Float where
  toReal v := viewToReal (view v)
  zero := rfl
  one := viewToReal_one
  minusOne := by
    show viewToReal (view (-1)) = -1
    rw [view_neg, viewToReal_neg, viewToReal_one]
  neg v _ := by rw [view_neg, viewToReal_neg]

end Binary64

end SymbolicCalculus
