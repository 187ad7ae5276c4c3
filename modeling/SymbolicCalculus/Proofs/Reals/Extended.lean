import SymbolicCalculus.Expr.Basic
import SymbolicCalculus.Proofs.Reals.Scalar

/-!
# Exact numbers with infinite and undefined values

Arithmetic never fails. A division by zero has an infinite value, the logarithm of a negative number
is undefined, and a power may make an infinite value finite again: `e ^ ln 0` is zero. `Extended` is
the real numbers with these values. Its operations follow the standard for floating-point arithmetic
in everything but rounding, and as there is nothing to round, there is only one zero. It counts as
positive where its sign matters.

Multiplication is commutative and associative (`Extended.instCommMonoid`), also where it is
undefined, and `e ^ (ln x * y)` is `x ^ y` wherever it is finite (`Extended.pow_e_ln_mul`).
-/

namespace SymbolicCalculus

/-- A real number, one of the two infinite values or the undefined value. -/
inductive Extended where
  | real (v : ℝ)
  | infinite (negative : Bool)
  | undefined

namespace Extended

open scoped Classical

noncomputable section

/-! ## Arithmetic -/

instance : Zero Extended := ⟨real 0⟩

instance : One Extended := ⟨real 1⟩

instance : Neg Extended where
  neg
    | real v => real (-v)
    | infinite s => infinite (!s)
    | undefined => undefined

instance : Add Extended where
  add
    | real v, real w => real (v + w)
    | real _, infinite s => infinite s
    | infinite s, real _ => infinite s
    | infinite s, infinite t => if s = t then infinite s else undefined
    | _, _ => undefined

instance : Sub Extended where
  sub x y := x + -y

/-- The product of an infinite value and a number. -/
def scale (s : Bool) (v : ℝ) : Extended :=
  if v = 0 then undefined else infinite (s ^^ decide (v < 0))

instance : Mul Extended where
  mul
    | real v, real w => real (v * w)
    | real v, infinite s => scale s v
    | infinite s, real v => scale s v
    | infinite s, infinite t => infinite (s ^^ t)
    | _, _ => undefined

/-- The reciprocal of a value. -/
def inverse : Extended → Extended
  | real v => if v = 0 then infinite false else real v⁻¹
  | infinite _ => real 0
  | undefined => undefined

instance : Div Extended where
  div x y := x * y.inverse

instance : BEq Extended where
  beq
    | real v, real w => v = w
    | infinite s, infinite t => s == t
    | _, _ => false

/-- `x` raised to the power `y`, where the base is not one and the exponent not zero. -/
def properPow : (x y : Extended) → Extended
  | real v, real w =>
    if v = 0 then (if w < 0 then infinite false else 0)
    else if v < 0 ∧ ¬ ∃ n : ℤ, w = n then undefined
    else real (v ^ w)
  | real v, infinite s =>
    if |v| = 1 then 1 else if s = decide (1 < |v|) then 0 else infinite false
  | infinite s, real w => if w < 0 then 0 else infinite (s && decide (∃ n : ℤ, Odd n ∧ w = n))
  | infinite _, infinite s => if s then 0 else infinite false
  | _, _ => undefined

/-- `pow x y` is `x` raised to the power `y`. A power to the exponent zero is one, also of an
undefined base, and so is a power of one. -/
def pow (x y : Extended) : Extended := if y = 0 ∨ x = 1 then 1 else properPow x y

/-! ## Functions -/

/-- The natural logarithm. -/
def ln : Extended → Extended
  | real v => if v = 0 then infinite true else if v < 0 then undefined else real (Real.log v)
  | infinite false => infinite false
  | _ => undefined

/-- The value of a function without a limit at infinity. -/
def atReals (f : ℝ → ℝ) : Extended → Extended
  | real v => real (f v)
  | _ => undefined

/-- The value of an odd function that grows beyond all bounds. -/
def odd (f : ℝ → ℝ) : Extended → Extended
  | real v => real (f v)
  | x => x

/-- The value of an even function that grows beyond all bounds. -/
def even (f : ℝ → ℝ) : Extended → Extended
  | real v => real (f v)
  | infinite _ => infinite false
  | undefined => undefined

/-- The square root. -/
def sqrt : Extended → Extended
  | real v => if v < 0 then undefined else real (Real.sqrt v)
  | infinite false => infinite false
  | _ => undefined

/-- The hyperbolic tangent. -/
def tanh : Extended → Extended
  | real v => real (Real.tanh v)
  | infinite s => real (if s then -1 else 1)
  | undefined => undefined

/-- The tangent. -/
def tan (x : Extended) : Extended := atReals Real.sin x / atReals Real.cos x

/-- The value of a function at a point. A secant, cosecant or cotangent, hyperbolic or not, is the
reciprocal of the cosine, sine or tangent. -/
def apply : Fn → Extended → Extended
  | .sin, x => atReals Real.sin x
  | .cos, x => atReals Real.cos x
  | .tan, x => tan x
  | .sinh, x => odd Real.sinh x
  | .cosh, x => even Real.cosh x
  | .tanh, x => tanh x
  | .sech, x => (even Real.cosh x).inverse
  | .csch, x => (odd Real.sinh x).inverse
  | .cot, x => (tan x).inverse
  | .coth, x => (tanh x).inverse
  | .csc, x => (atReals Real.sin x).inverse
  | .sec, x => (atReals Real.cos x).inverse
  | .ln, x => ln x
  | .abs, x => even abs x
  | .sqrt, x => sqrt x
  | .round, x => odd Reals.round x
  | .ceil, x => odd (fun v => ⌈v⌉) x
  | .floor, x => odd (fun v => ⌊v⌋) x

instance : Scalar Extended where
  pow := pow
  isNeg
    | real v => v < 0
    | infinite s => s
    | undefined => false
  isNaN
    | undefined => true
    | _ => false
  isFinite
    | real _ => true
    | _ => false
  nan := undefined
  constant c := real (Reals.constant c)
  apply := apply

end

/-! ## Equality -/

/-- The comparison tells all values apart, except that it never finds the undefined value equal to
itself. -/
protected theorem eq_of_beq {x y : Extended} (h : (x == y) = true) : x = y := by
  cases x with
  | real v =>
      cases y with
      | real w => exact congrArg real (of_decide_eq_true h)
      | _ => cases h
  | infinite s =>
      cases y with
      | infinite t => exact congrArg infinite (LawfulBEq.eq_of_beq h)
      | _ => cases h
  | undefined => cases h

/-! ## Products -/

@[simp] theorem real_mul_real (v w : ℝ) : real v * real w = real (v * w) := rfl

@[simp] theorem real_mul_infinite (v : ℝ) (s : Bool) : real v * infinite s = scale s v := rfl

@[simp] theorem infinite_mul_real (s : Bool) (v : ℝ) : infinite s * real v = scale s v := rfl

@[simp] theorem infinite_mul_infinite (s t : Bool) : infinite s * infinite t = infinite (s ^^ t) :=
  rfl

@[simp] theorem undefined_mul (x : Extended) : undefined * x = undefined := by
  cases x <;> rfl

@[simp] theorem mul_undefined (x : Extended) : x * undefined = undefined := by
  cases x <;> rfl

@[simp] theorem scale_zero (s : Bool) : scale s 0 = undefined := if_pos rfl

theorem scale_of_ne_zero (s : Bool) {v : ℝ} (hv : v ≠ 0) :
    scale s v = infinite (s ^^ decide (v < 0)) := if_neg hv

/-- If the product with an infinite value is infinite, the number is not zero, and its sign decides
that of the product. -/
theorem scale_eq_infinite {s t : Bool} {v : ℝ} (h : scale s v = infinite t) :
    v ≠ 0 ∧ t = (s ^^ decide (v < 0)) := by
  by_cases hv : v = 0
  · rw [hv, scale_zero] at h
    cases h
  · rw [scale_of_ne_zero s hv] at h
    exact ⟨hv, (Extended.infinite.inj h).symm⟩

theorem scale_ne_real (s : Bool) (v w : ℝ) : scale s v ≠ real w := by
  unfold scale
  split <;> exact fun h => nomatch h

/-- A product that is finite has finite factors. -/
theorem exists_of_mul_eq_real {x y : Extended} {w : ℝ} (h : x * y = real w) :
    ∃ a b, x = real a ∧ y = real b ∧ a * b = w := by
  -- an infinite or undefined factor keeps the product from being finite
  cases x with
  | undefined =>
      rw [undefined_mul] at h
      cases h
  | real a =>
      cases y with
      | real b => exact ⟨a, b, rfl, rfl, Extended.real.inj h⟩
      | infinite s => exact absurd h (scale_ne_real s a w)
      | undefined => cases h
  | infinite s =>
      cases y with
      | real b => exact absurd h (scale_ne_real s b w)
      | _ => cases h

/-- A product of numbers other than zero is negative if and only if just one of them is. -/
theorem decide_mul_neg {v w : ℝ} (hv : v ≠ 0) (hw : w ≠ 0) :
    decide (v * w < 0) = (decide (v < 0) ^^ decide (w < 0)) := by
  rcases lt_or_gt_of_ne hv with hv | hv
  · rcases lt_or_gt_of_ne hw with hw | hw
    · rw [decide_eq_true hv, decide_eq_true hw,
        decide_eq_false (mul_pos_of_neg_of_neg hv hw).not_gt]
      rfl
    · rw [decide_eq_true hv, decide_eq_false hw.not_gt,
        decide_eq_true (mul_neg_of_neg_of_pos hv hw)]
      rfl
  · rcases lt_or_gt_of_ne hw with hw | hw
    · rw [decide_eq_false hv.not_gt, decide_eq_true hw,
        decide_eq_true (mul_neg_of_pos_of_neg hv hw)]
      rfl
    · rw [decide_eq_false hv.not_gt, decide_eq_false hw.not_gt,
        decide_eq_false (mul_pos hv hw).not_gt]
      rfl

/-- Two numbers may scale an infinite value one after the other or together. -/
theorem scale_mul_real (s : Bool) (v w : ℝ) : scale s v * real w = scale s (v * w) := by
  -- zero makes the product undefined, on whichever side it is
  by_cases hv : v = 0
  · simp [hv]
  · by_cases hw : w = 0
    · simp [hv, hw, scale_of_ne_zero]
    · simp [hv, hw, scale_of_ne_zero, decide_mul_neg]

theorem scale_mul_infinite (s t : Bool) (v : ℝ) : scale s v * infinite t = scale (s ^^ t) v := by
  by_cases hv : v = 0
  · simp [hv]
  · rw [scale_of_ne_zero s hv, scale_of_ne_zero _ hv, infinite_mul_infinite, Bool.xor_right_comm]

/-- The cases of multiplication mirror each other. -/
protected theorem mul_comm (x y : Extended) : x * y = y * x := by
  cases x with
  | undefined => simp
  | real v =>
      cases y with
      | real w => simp [mul_comm]
      | _ => simp
  | infinite s =>
      cases y with
      | infinite t => simp [Bool.xor_comm]
      | _ => simp

theorem real_mul_scale (s : Bool) (v w : ℝ) : real v * scale s w = scale s (v * w) := by
  rw [Extended.mul_comm, scale_mul_real, mul_comm]

theorem infinite_mul_scale (s t : Bool) (v : ℝ) : infinite s * scale t v = scale (s ^^ t) v := by
  rw [Extended.mul_comm, scale_mul_infinite, Bool.xor_comm]

/-- Products may be grouped in any way, also where infinite or undefined values take part. -/
protected theorem mul_assoc (x y z : Extended) : x * y * z = x * (y * z) := by
  -- with two infinite factors what is compared are signs, with one it is the sign and the number
  -- that scales
  cases x with
  | undefined => simp
  | real u =>
      cases y with
      | undefined => simp
      | real v => cases z <;> simp [mul_assoc, real_mul_scale]
      | infinite s => cases z <;> simp [scale_mul_real, real_mul_scale, scale_mul_infinite]
  | infinite r =>
      cases y with
      | undefined => simp
      | real v => cases z <;> simp [scale_mul_real, scale_mul_infinite, infinite_mul_scale]
      | infinite s => cases z <;> simp [infinite_mul_scale]

/-- One scales nothing and changes no sign. -/
protected theorem one_mul (x : Extended) : 1 * x = x := by
  show real 1 * x = x
  cases x with
  | real v => simp
  | infinite s =>
      rw [real_mul_infinite, scale_of_ne_zero s one_ne_zero, decide_eq_false one_pos.not_gt,
        Bool.xor_false]
  | undefined => simp

noncomputable instance : CommMonoid Extended where
  mul_assoc := Extended.mul_assoc
  mul_comm := Extended.mul_comm
  one_mul := Extended.one_mul
  mul_one x := by rw [Extended.mul_comm, Extended.one_mul]

@[simp] theorem product_nil : Scalar.product ([] : List Extended) = 1 := rfl

/-- The loop of a product starts with one, so its first factor can be taken out. -/
@[simp] theorem product_cons (x : Extended) (xs : List Extended) :
    Scalar.product (x :: xs) = x * Scalar.product xs := by
  have hprod : ∀ ys : List Extended, Scalar.product ys = ys.prod :=
    fun ys => List.prod_eq_foldl.symm
  rw [hprod, hprod, List.prod_cons]

/-! ## Powers -/

section Powers

open scoped Classical

theorem pow_zero (x : Extended) : pow x 0 = 1 := if_pos (Or.inl rfl)

theorem one_pow (x : Extended) : pow 1 x = 1 := if_pos (Or.inr rfl)

@[simp] theorem real_eq_zero_iff {v : ℝ} : real v = 0 ↔ v = 0 :=
  ⟨fun h => Extended.real.inj h, fun h => congrArg real h⟩

@[simp] theorem real_eq_one_iff {v : ℝ} : real v = 1 ↔ v = 1 :=
  ⟨fun h => Extended.real.inj h, fun h => congrArg real h⟩

protected theorem one_ne_zero : (1 : Extended) ≠ 0 := mt real_eq_zero_iff.mp one_ne_zero

protected theorem zero_ne_one : (0 : Extended) ≠ 1 := Extended.one_ne_zero.symm

@[simp] theorem infinite_ne_zero (s : Bool) : infinite s ≠ 0 := fun h => nomatch h

@[simp] theorem infinite_ne_one (s : Bool) : infinite s ≠ 1 := fun h => nomatch h

@[simp] theorem undefined_ne_zero : undefined ≠ 0 := fun h => nomatch h

theorem pow_of_ne {x y : Extended} (hy : y ≠ 0) (hx : x ≠ 1) : pow x y = properPow x y :=
  if_neg (not_or.mpr ⟨hy, hx⟩)

/-- A power to the exponent one is the base. One is an odd integer, so signs are kept. -/
theorem pow_one (x : Extended) : pow x 1 = x := by
  by_cases hx : x = 1
  · rw [hx, one_pow]
  rw [pow_of_ne Extended.one_ne_zero hx]
  cases x with
  | real v =>
      show (if v = 0 then _ else _) = _
      split
      · next hv =>
        rw [if_neg one_pos.not_gt, hv]
        rfl
      · have hone : ∃ n : ℤ, (1 : ℝ) = n := ⟨1, by simp⟩
        rw [if_neg (fun h => h.2 hone), Real.rpow_one]
  | infinite s =>
      have hodd : ∃ n : ℤ, Odd n ∧ (1 : ℝ) = n := ⟨1, odd_one, by simp⟩
      show (if (1 : ℝ) < 0 then _ else infinite (s && decide _)) = _
      rw [if_neg one_pos.not_gt, decide_eq_true hodd, Bool.and_true]
  | undefined => rfl

/-- Powers of positive numbers are those of analysis. -/
theorem pow_real_of_pos {v : ℝ} (hv : 0 < v) (w : ℝ) : pow (real v) (real w) = real (v ^ w) := by
  by_cases hw : w = 0
  · rw [hw, Real.rpow_zero]
    exact pow_zero _
  by_cases hv1 : v = 1
  · rw [hv1, Real.one_rpow]
    exact one_pow _
  rw [pow_of_ne (mt real_eq_zero_iff.mp hw) (mt real_eq_one_iff.mp hv1)]
  show (if v = 0 then _ else _) = _
  rw [if_neg hv.ne', if_neg (fun h => hv.not_gt h.1)]

/-- Powers to an infinite exponent go to zero or beyond all bounds. -/
theorem pow_infinite {v : ℝ} (hv : 0 ≤ v) (hv1 : v ≠ 1) (s : Bool) :
    pow (real v) (infinite s) = if s = decide (1 < v) then 0 else infinite false := by
  rw [pow_of_ne (infinite_ne_zero s) (mt real_eq_one_iff.mp hv1)]
  show (if |v| = 1 then 1 else if s = decide (1 < |v|) then 0 else infinite false) = _
  rw [abs_of_nonneg hv, if_neg hv1]

/-- A power of zero that is finite is zero, but for the exponent zero. -/
theorem zero_pow_eq_real {x : Extended} {v : ℝ} (h : pow 0 x = real v) :
    v = 0 ∨ (x = 0 ∧ v = 1) := by
  by_cases hx : x = 0
  · rw [hx, pow_zero] at h
    exact Or.inr ⟨hx, real_eq_one_iff.mp h.symm⟩
  left
  cases x with
  | real w =>
      rw [pow_of_ne hx Extended.zero_ne_one] at h
      change (if (0 : ℝ) = 0 then (if w < 0 then infinite false else 0) else _) = real v at h
      rw [if_pos rfl] at h
      split at h
      · cases h
      · exact real_eq_zero_iff.mp h.symm
  | infinite s =>
      change pow (real 0) (infinite s) = real v at h
      rw [pow_infinite le_rfl zero_ne_one] at h
      split at h
      · exact real_eq_zero_iff.mp h.symm
      · cases h
  | undefined =>
      rw [pow_of_ne hx Extended.zero_ne_one] at h
      cases h

/-- A power of `e` that is finite has a finite exponent or is zero. -/
theorem e_pow_eq_real {x : Extended} {v : ℝ} (h : pow (real (Real.exp 1)) x = real v) :
    (∃ w, x = real w ∧ v = Real.exp w) ∨ (x = infinite true ∧ v = 0) := by
  have he : 1 < Real.exp 1 := Real.one_lt_exp_iff.mpr one_pos
  cases x with
  | real w =>
      rw [pow_real_of_pos (Real.exp_pos 1), Real.exp_one_rpow] at h
      exact Or.inl ⟨w, rfl, (Extended.real.inj h).symm⟩
  | infinite s =>
      rw [pow_infinite (Real.exp_pos 1).le he.ne', decide_eq_true he] at h
      split at h
      · next hs => exact Or.inr ⟨congrArg infinite hs, real_eq_zero_iff.mp h.symm⟩
      · cases h
  | undefined =>
      rw [pow_of_ne undefined_ne_zero (mt real_eq_one_iff.mp he.ne')] at h
      cases h

theorem ln_of_pos {v : ℝ} (hv : 0 < v) : ln (real v) = real (Real.log v) := by
  show (if v = 0 then _ else if v < 0 then _ else _) = _
  rw [if_neg hv.ne', if_neg hv.not_gt]

theorem ln_zero : ln (real 0) = infinite true := if_pos rfl

/-- The logarithm of a negative number is undefined. -/
theorem ln_of_neg {v : ℝ} (hv : v < 0) : ln (real v) = undefined := by
  show (if v = 0 then _ else if v < 0 then _ else _) = _
  rw [if_neg hv.ne, if_pos hv]

/-- The numbers that have a finite logarithm are the positive ones. -/
theorem exists_of_ln_eq_real {x : Extended} {a : ℝ} (h : ln x = real a) :
    ∃ u, x = real u ∧ 0 < u ∧ Real.log u = a := by
  cases x with
  | real u =>
      -- the logarithm is undefined below zero and infinite at zero
      rcases lt_trichotomy u 0 with hu | rfl | hu
      · rw [ln_of_neg hu] at h
        cases h
      · rw [ln_zero] at h
        cases h
      · rw [ln_of_pos hu] at h
        exact ⟨u, rfl, hu, Extended.real.inj h⟩
  | infinite s => cases s <;> cases h
  | undefined => cases h

/-! ### Products with a logarithm that go below all bounds -/

/-- Zero has an infinite logarithm. If the product with it goes below all bounds, the exponent is
positive. -/
theorem zero_pow_of_mul {y : Extended} (h : infinite true * y = infinite true) :
    pow (real 0) y = 0 := by
  cases y with
  | real w =>
      obtain ⟨hw, hsign⟩ := scale_eq_infinite h
      have hneg : ¬ w < 0 := by simpa using hsign
      rw [pow_of_ne (mt real_eq_zero_iff.mp hw) (mt real_eq_one_iff.mp zero_ne_one)]
      show (if (0 : ℝ) = 0 then (if w < 0 then infinite false else 0) else _) = _
      rw [if_pos rfl, if_neg hneg]
  | infinite s =>
      have hs : s = false := by simpa using Extended.infinite.inj h
      rw [pow_infinite le_rfl zero_ne_one, hs, if_pos (by simp)]
  | undefined => cases h

/-- A positive number has a finite logarithm, so the exponent is infinite, and of the sign that
makes the power vanish. -/
theorem pos_pow_of_mul {u : ℝ} (hu : 0 < u) {y : Extended}
    (h : real (Real.log u) * y = infinite true) : pow (real u) y = 0 := by
  cases y with
  | real w => cases h
  | infinite s =>
      obtain ⟨hlog, hsign⟩ := scale_eq_infinite h
      have hu1 : u ≠ 1 := fun hu1 => hlog (by rw [hu1, Real.log_one])
      -- the logarithm is negative below one and positive above
      have hneg : decide (Real.log u < 0) = !decide (1 < u) := by
        rcases lt_or_gt_of_ne hu1 with h1 | h1
        · rw [decide_eq_true (Real.log_neg hu h1), decide_eq_false h1.not_gt]
          rfl
        · rw [decide_eq_false (Real.log_pos h1).not_gt, decide_eq_true h1]
          rfl
      rw [hneg] at hsign
      have hs : s = decide (1 < u) := by cases s <;> simpa using hsign
      rw [pow_infinite hu.le hu1, if_pos hs]
  | undefined => cases h

/-- The logarithm of the positive infinite value is itself. If the product with it goes below all
bounds, the exponent is negative. -/
theorem infinite_pow_of_mul {y : Extended} (h : infinite false * y = infinite true) :
    pow (infinite false) y = 0 := by
  cases y with
  | real w =>
      obtain ⟨hw, hsign⟩ := scale_eq_infinite h
      have hneg : w < 0 := by simpa using hsign
      rw [pow_of_ne (mt real_eq_zero_iff.mp hw) (infinite_ne_one false)]
      exact if_pos hneg
  | infinite t =>
      have ht : t = true := by simpa using Extended.infinite.inj h
      rw [pow_of_ne (infinite_ne_zero t) (infinite_ne_one false), ht]
      rfl
  | undefined => cases h

/-- Where `ln x * y` goes below all bounds, `x ^ y` goes to zero. -/
theorem pow_eq_zero_of_ln_mul {x y : Extended} (h : ln x * y = infinite true) : pow x y = 0 := by
  have hundefined : undefined * y ≠ infinite true := by
    rw [undefined_mul]
    exact fun h => nomatch h
  cases x with
  | real u =>
      rcases lt_trichotomy u 0 with hu | rfl | hu
      · exact absurd (ln_of_neg hu ▸ h) hundefined
      · exact zero_pow_of_mul (ln_zero ▸ h)
      · exact pos_pow_of_mul hu (ln_of_pos hu ▸ h)
  | infinite s =>
      cases s with
      | true => exact absurd h hundefined
      | false => exact infinite_pow_of_mul h
  | undefined => exact absurd h hundefined

/-- Undoing a power as `e` to a logarithm: where `e ^ (ln x * y)` is finite, it is `x ^ y`. The
logarithm may be infinite there. -/
theorem pow_e_ln_mul {x y : Extended} {v : ℝ} (h : pow (real (Real.exp 1)) (ln x * y) = real v) :
    pow x y = real v := by
  -- either the exponent is finite, and so are both of its factors, or it goes below all bounds
  rcases e_pow_eq_real h with ⟨w, hw, rfl⟩ | ⟨hw, rfl⟩
  · obtain ⟨a, b, ha, rfl, rfl⟩ := exists_of_mul_eq_real hw
    obtain ⟨u, rfl, hu, rfl⟩ := exists_of_ln_eq_real ha
    rw [pow_real_of_pos hu, Real.rpow_def_of_pos hu]
  · exact pow_eq_zero_of_ln_mul hw

theorem pow_e_ln {x : Extended} {v : ℝ} (h : pow (real (Real.exp 1)) (ln x) = real v) :
    x = real v := by
  have hmul : pow (real (Real.exp 1)) (ln x * 1) = real v := by rw [mul_one, h]
  rw [← pow_e_ln_mul hmul, pow_one]

end Powers

end Extended

end SymbolicCalculus
