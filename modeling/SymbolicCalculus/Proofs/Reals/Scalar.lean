import Mathlib.Analysis.SpecialFunctions.Pow.Real
import SymbolicCalculus.Scalar

/-!
# Real scalars

The rules of simplification and differentiation are statements about real numbers. With `ℝ` in
place of the floating-point numbers, arithmetic is exact, every scalar is a finite number, and the
constants and functions are those of analysis.

Division and the functions are total on `ℝ`. `Fn.Domain` and `PowDomain` say where their values
mean what is written.
-/

namespace SymbolicCalculus

namespace Reals

/-- The value of a named constant. -/
noncomputable def constant : Constant → ℝ
  | .pi => Real.pi
  | .e => Real.exp 1

/-- The nearest integer, a half going away from zero. -/
noncomputable def round (v : ℝ) : ℝ := if v < 0 then ⌈v - 1 / 2⌉ else ⌊v + 1 / 2⌋

/-- The value of a function at a point. -/
noncomputable def apply : Fn → ℝ → ℝ
  | .sin, v => Real.sin v
  | .cos, v => Real.cos v
  | .tan, v => Real.tan v
  | .sinh, v => Real.sinh v
  | .cosh, v => Real.cosh v
  | .tanh, v => Real.tanh v
  | .sech, v => 1 / Real.cosh v
  | .csch, v => 1 / Real.sinh v
  | .cot, v => Real.cos v / Real.sin v
  | .coth, v => Real.cosh v / Real.sinh v
  | .csc, v => 1 / Real.sin v
  | .sec, v => 1 / Real.cos v
  | .ln, v => Real.log v
  | .abs, v => |v|
  | .sqrt, v => Real.sqrt v
  | .round, v => round v
  | .ceil, v => ⌈v⌉
  | .floor, v => ⌊v⌋

end Reals

noncomputable instance : Scalar ℝ where
  pow a b := a ^ b
  isNeg a := decide (a < 0)
  isNaN _ := false
  isFinite _ := true
  nan := 0
  constant := Reals.constant
  apply := Reals.apply

/-- The points at which a function is defined. -/
def Fn.Domain : Fn → ℝ → Prop
  | .tan, v | .sec, v => Real.cos v ≠ 0
  | .cot, v | .csc, v => Real.sin v ≠ 0
  | .coth, v | .csch, v => v ≠ 0
  | .ln, v => 0 < v
  | .sqrt, v => 0 ≤ v
  | _, _ => True

/-- The bases and exponents of which there is a power: the base is positive, or it is zero and the
exponent positive, or it is negative and the exponent an integer. -/
def PowDomain (a b : ℝ) : Prop :=
  0 < a ∨ (a = 0 ∧ 0 < b) ∨ (a < 0 ∧ ∃ n : ℤ, b = n)

/-! ## The operations on real scalars -/

namespace Reals

@[simp] theorem same_iff {a b : ℝ} : Scalar.same a b = true ↔ a = b := by
  simp [Scalar.same, Scalar.isNaN]

/-- No list of real numbers has an undefined entry. -/
@[simp] theorem any_isNaN (vs : List ℝ) : vs.any Scalar.isNaN = false := by
  simp [List.any_eq_false]

@[simp] theorem scalar_apply (f : Fn) (v : ℝ) : Scalar.apply f v = apply f v := rfl

@[simp] theorem scalar_minusOne : (Scalar.minusOne : ℝ) = -1 := rfl

@[simp] theorem scalar_two : (Scalar.two : ℝ) = 2 := one_add_one_eq_two

end Reals

/-! ## Laws of powers -/

namespace PowDomain

variable {a b c : ℝ}

/-- Every number is a power of itself. -/
theorem one (a : ℝ) : PowDomain a 1 := by
  rcases lt_trichotomy a 0 with h | h | h
  · exact Or.inr (Or.inr ⟨h, 1, by simp⟩)
  · exact Or.inr (Or.inl ⟨h, one_pos⟩)
  · exact Or.inl h

/-- A base that has two powers has one with the sum of the exponents. -/
theorem add (hb : PowDomain a b) (hc : PowDomain a c) : PowDomain a (b + c) := by
  -- whatever lets the base have the one power lets it have the other
  rcases hb with ha | ⟨ha, hb⟩ | ⟨ha, m, rfl⟩
  · exact Or.inl ha
  · rcases hc with h | ⟨_, hc⟩ | ⟨h, _⟩
    · exact absurd ha h.ne'
    · exact Or.inr (Or.inl ⟨ha, add_pos hb hc⟩)
    · exact absurd ha h.ne
  · rcases hc with h | ⟨h, _⟩ | ⟨_, n, rfl⟩
    · exact absurd h ha.not_gt
    · exact absurd h ha.ne
    · exact Or.inr (Or.inr ⟨ha, m + n, by push_cast; rfl⟩)

/-- Every number has a square. -/
theorem two (a : ℝ) : PowDomain a 2 := by
  have h := (one a).add (one a)
  rwa [one_add_one_eq_two] at h

/-- A base other than zero that has two powers has one with the difference of the exponents. -/
theorem sub (ha : a ≠ 0) (hb : PowDomain a b) (hc : PowDomain a c) : PowDomain a (b - c) := by
  rcases hb with h | ⟨h, _⟩ | ⟨h, m, rfl⟩
  · exact Or.inl h
  · exact absurd h ha
  · rcases hc with h' | ⟨h', _⟩ | ⟨_, n, rfl⟩
    · exact absurd h' h.not_gt
    · exact absurd h' ha
    · exact Or.inr (Or.inr ⟨h, m - n, by push_cast; rfl⟩)

/-- Where both powers exist, adding exponents multiplies powers. Of a base of zero both exponents
are positive, and of a negative base both are integers. -/
theorem rpow_add (hb : PowDomain a b) (hc : PowDomain a c) : a ^ (b + c) = a ^ b * a ^ c := by
  rcases hb with ha | ⟨ha, hb⟩ | ⟨ha, m, rfl⟩
  · exact Real.rpow_add ha b c
  · rcases hc with h | ⟨_, hc⟩ | ⟨h, _⟩
    · exact absurd ha h.ne'
    · rw [ha, Real.zero_rpow (add_pos hb hc).ne', Real.zero_rpow hb.ne', zero_mul]
    · exact absurd ha h.ne
  · rw [add_comm, Real.rpow_add_intCast ha.ne, Real.rpow_intCast, mul_comm]

/-- A power other than zero has a base other than zero. -/
theorem base_ne_zero (hb : PowDomain a b) (h : a ^ b ≠ 0) : a ≠ 0 := by
  rintro rfl
  rcases hb with hpos | ⟨_, hb⟩ | ⟨hneg, _⟩
  · exact absurd rfl hpos.ne'
  · exact h (Real.zero_rpow hb.ne')
  · exact absurd rfl hneg.ne

/-- A base other than zero has no power that is zero. -/
theorem rpow_ne_zero (ha : a ≠ 0) (hb : PowDomain a b) : a ^ b ≠ 0 := by
  rcases hb with h | ⟨h, _⟩ | ⟨_, n, rfl⟩
  · exact (Real.rpow_pos_of_pos h b).ne'
  · exact absurd h ha
  · rw [Real.rpow_intCast]
    exact zpow_ne_zero n ha

/-- Of a base other than zero, subtracting exponents divides powers. -/
theorem rpow_sub (ha : a ≠ 0) (hb : PowDomain a b) (hc : PowDomain a c) :
    a ^ (b - c) = a ^ b / a ^ c := by
  have hadd : a ^ b = a ^ (b - c) * a ^ c := by
    rw [← rpow_add (sub ha hb hc) hc, sub_add_cancel]
  rw [hadd, mul_div_cancel_right₀ _ (rpow_ne_zero ha hc)]

end PowDomain

end SymbolicCalculus
