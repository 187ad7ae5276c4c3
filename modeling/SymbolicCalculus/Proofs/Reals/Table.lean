import Mathlib.Analysis.Calculus.Deriv.Abs
import Mathlib.Analysis.SpecialFunctions.Pow.Deriv
import Mathlib.Analysis.SpecialFunctions.Sqrt
import Mathlib.Analysis.SpecialFunctions.Trigonometric.ArctanDeriv
import Mathlib.Analysis.SpecialFunctions.Trigonometric.DerivHyp
import SymbolicCalculus.Derivative.Table
import SymbolicCalculus.Proofs.Reals.Value

/-!
# The table of derivatives is right

For every function that has an entry in the table, the entry at `u` has the value of the function's
derivative at the value of `u`, and it is defined wherever the function is smooth
(`hasDerivAt_of_derivative`). The quotients among the functions (tangents, secants and their
hyperbolic relatives) get their derivatives from the quotient rule.
-/

namespace SymbolicCalculus

variable {σ : String → ℝ}

/-- The points at which a function that has an entry in the table has a derivative: the logarithm
and the root need a positive argument, the absolute value one other than zero, and any other
function an argument in its domain. -/
def Fn.Smooth : Fn → ℝ → Prop
  | .ln, v | .sqrt, v => 0 < v
  | .abs, v => v ≠ 0
  | f, v => f.Domain v

theorem Fn.Smooth.domain {f : Fn} {v : ℝ} (h : f.Smooth v) : f.Domain v := by
  cases f <;> first | exact h | exact trivial | exact h.le

/-! ## Squares -/

namespace Expr

@[simp] theorem value_squared (e : Expr ℝ) : e.squared.value σ = e.value σ ^ 2 := by
  show e.value σ ^ (Scalar.two : ℝ) = _
  rw [Reals.scalar_two, Real.rpow_two]

@[simp] theorem defined_squared (e : Expr ℝ) : e.squared.Defined σ ↔ e.Defined σ := by
  simp [squared, PowDomain.two]

end Expr

/-! ## Quotients of functions -/

namespace Reals

/-- The table has `tan ^ 2 + 1`, which is the reciprocal of the square of the cosine. -/
theorem hasDerivAt_tan {v : ℝ} (h : Real.cos v ≠ 0) :
    HasDerivAt Real.tan (Real.tan v ^ 2 + 1) v := by
  refine (Real.hasDerivAt_tan h).congr_deriv ?_
  rw [Real.tan_eq_sin_div_cos, div_pow]
  field_simp
  exact (Real.sin_sq_add_cos_sq v).symm

/-- The hyperbolic tangent has the square of the hyperbolic secant for its slope. -/
theorem hasDerivAt_tanh (v : ℝ) : HasDerivAt Real.tanh ((1 / Real.cosh v) ^ 2) v := by
  have hcosh : Real.cosh v ≠ 0 := (Real.cosh_pos v).ne'
  have hfun : Real.tanh = fun w => Real.sinh w / Real.cosh w :=
    funext Real.tanh_eq_sinh_div_cosh
  rw [hfun]
  refine ((Real.hasDerivAt_sinh v).fun_div (Real.hasDerivAt_cosh v) hcosh).congr_deriv ?_
  -- the numerator of the quotient rule is `cosh ^ 2 - sinh ^ 2`
  rw [div_pow, one_pow, ← Real.cosh_sq_sub_sinh_sq v]
  ring

/-- Secants and cosecants have themselves as factors of their slopes. -/
theorem hasDerivAt_sech (v : ℝ) :
    HasDerivAt (fun w => 1 / Real.cosh w) (-1 * (1 / Real.cosh v * Real.tanh v)) v := by
  have hcosh : Real.cosh v ≠ 0 := (Real.cosh_pos v).ne'
  refine ((hasDerivAt_const v 1).fun_div (Real.hasDerivAt_cosh v) hcosh).congr_deriv ?_
  rw [Real.tanh_eq_sinh_div_cosh]
  field_simp
  ring

/-- The hyperbolic cosecant is smooth away from zero, the only root of the hyperbolic sine. -/
theorem hasDerivAt_csch {v : ℝ} (h : v ≠ 0) :
    HasDerivAt (fun w => 1 / Real.sinh w)
      (-1 * (Real.cosh v / Real.sinh v * (1 / Real.sinh v))) v := by
  have hsinh : Real.sinh v ≠ 0 := Real.sinh_eq_zero.not.mpr h
  refine ((hasDerivAt_const v 1).fun_div (Real.hasDerivAt_sinh v) hsinh).congr_deriv ?_
  field_simp
  ring

/-- The cotangent falls wherever it is defined. -/
theorem hasDerivAt_cot {v : ℝ} (h : Real.sin v ≠ 0) :
    HasDerivAt (fun w => Real.cos w / Real.sin w) (-1 * (1 / Real.sin v) ^ 2) v := by
  refine ((Real.hasDerivAt_cos v).fun_div (Real.hasDerivAt_sin v) h).congr_deriv ?_
  field_simp
  linear_combination -Real.sin_sq_add_cos_sq v

/-- The hyperbolic cotangent falls on both sides of zero. -/
theorem hasDerivAt_coth {v : ℝ} (h : v ≠ 0) :
    HasDerivAt (fun w => Real.cosh w / Real.sinh w) (-1 * (1 / Real.sinh v) ^ 2) v := by
  have hsinh : Real.sinh v ≠ 0 := Real.sinh_eq_zero.not.mpr h
  refine ((Real.hasDerivAt_cosh v).fun_div (Real.hasDerivAt_sinh v) hsinh).congr_deriv ?_
  field_simp
  linear_combination -Real.cosh_sq_sub_sinh_sq v

/-- Away from zero the absolute value grows or falls with slope one. -/
theorem hasDerivAt_abs {v : ℝ} (h : v ≠ 0) : HasDerivAt (fun w : ℝ => |w|) (v / |v|) v := by
  rcases lt_or_gt_of_ne h with hneg | hpos
  · refine (hasDerivAt_abs_neg hneg).congr_deriv ?_
    rw [abs_of_neg hneg, div_neg, div_self h]
  · refine (hasDerivAt_abs_pos hpos).congr_deriv ?_
    rw [abs_of_pos hpos, div_self h]

end Reals

/-! ## The table -/

/-- An entry of the table is defined where its function is smooth. -/
theorem defined_of_derivative {f : Fn} {u d : Expr ℝ} (hu : u.Defined σ)
    (hf : f.Smooth (u.value σ)) (hd : f.derivative? u = .ok d) : d.Defined σ := by
  have hcall : (Expr.call f u).Defined σ := ⟨hu, hf.domain⟩
  cases f with
  | sin | sinh | cosh =>
      cases hd
      exact ⟨hu, trivial⟩
  | cos =>
      cases hd
      exact ⟨trivial, ⟨hu, trivial⟩, trivial⟩
  | tan =>
      cases hd
      exact ⟨(Expr.defined_squared _).mpr hcall, trivial, trivial⟩
  | tanh =>
      cases hd
      exact (Expr.defined_squared _).mpr ⟨hu, trivial⟩
  | sech =>
      cases hd
      exact ⟨trivial, hcall, ⟨hu, trivial⟩, trivial⟩
  | csch =>
      cases hd
      exact ⟨trivial, ⟨hu, hf⟩, hcall, trivial⟩
  | cot | coth =>
      cases hd
      exact ⟨trivial, (Expr.defined_squared _).mpr ⟨hu, hf⟩, trivial⟩
  | ln =>
      cases hd
      exact ⟨trivial, hu, hf.ne'⟩
  | sqrt =>
      cases hd
      refine ⟨trivial, ⟨trivial, hcall, trivial⟩, ?_⟩
      simpa [Reals.apply] using (Real.sqrt_pos.mpr hf).ne'
  | abs =>
      cases hd
      exact ⟨hu, hcall, abs_ne_zero.mpr hf⟩
  -- these functions have no entry
  | csc | sec | round | ceil | floor => cases hd

/-- **The table is right.** An entry has the value of the derivative of its function, wherever that
function is smooth. -/
theorem hasDerivAt_of_derivative {f : Fn} {u d : Expr ℝ} (hf : f.Smooth (u.value σ))
    (hd : f.derivative? u = .ok d) : HasDerivAt (Reals.apply f) (d.value σ) (u.value σ) := by
  cases f with
  | sin => cases hd; exact Real.hasDerivAt_sin _
  | cos => cases hd; exact (Real.hasDerivAt_cos _).congr_deriv (by simp [Reals.apply])
  | tan =>
      cases hd
      exact (Reals.hasDerivAt_tan hf).congr_deriv (by simp [Addend.plus, Reals.apply])
  | sinh => cases hd; exact Real.hasDerivAt_sinh _
  | cosh => cases hd; exact Real.hasDerivAt_cosh _
  | tanh => cases hd; exact (Reals.hasDerivAt_tanh _).congr_deriv (by simp [Reals.apply])
  | sech => cases hd; exact (Reals.hasDerivAt_sech _).congr_deriv (by simp [Reals.apply])
  | csch => cases hd; exact (Reals.hasDerivAt_csch hf).congr_deriv (by simp [Reals.apply])
  | cot => cases hd; exact (Reals.hasDerivAt_cot hf).congr_deriv (by simp [Reals.apply])
  | coth => cases hd; exact (Reals.hasDerivAt_coth hf).congr_deriv (by simp [Reals.apply])
  | ln => cases hd; exact (Real.hasDerivAt_log hf.ne').congr_deriv (by simp)
  | sqrt => cases hd; exact (Real.hasDerivAt_sqrt hf.ne').congr_deriv (by simp [Reals.apply])
  | abs => cases hd; exact Reals.hasDerivAt_abs hf
  | csc | sec | round | ceil | floor => cases hd

end SymbolicCalculus
