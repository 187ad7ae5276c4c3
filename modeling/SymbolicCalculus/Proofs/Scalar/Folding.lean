import SymbolicCalculus.Proofs.Scalar.Codes

/-!
# The laws of folding

A number is put in the place of an operator on numbers, and a quotient or power of which an operand
is zero or one is known without being computed. `FoldLaws` says that the number is the right one
wherever the value is finite. The value of `0 / 0` or `0 ^ -1` is not.

Double-precision numbers satisfy these laws if their powers have the values that the standard for
floating-point arithmetic gives them where an operand is zero or one (`Binary64.PowLaws`).
-/

namespace SymbolicCalculus

/-- The laws of quotients and powers of which an operand is zero or one. -/
class Scalar.FoldLaws (K : Type) [Scalar K] : Prop extends Scalar.CongruenceLaws K where
  isNaN_eq_false : ∀ {v : K}, isFinite v → isNaN v = false
  divisor_ne_zero : ∀ {v w : K}, isFinite (v / w) → (w == 0) = false
  div_one : ∀ {v w : K}, w == 1 → same (v / w) v
  zero_div : ∀ {v w : K}, v == 0 → isFinite (v / w) → same (v / w) 0
  pow_zero : ∀ {v w : K}, w == 0 → same (pow v w) 1
  pow_one : ∀ {v w : K}, w == 1 → same (pow v w) v
  zero_pow : ∀ {v w : K}, v == 0 → (w == 0) = false → isFinite (pow v w) → same (pow v w) 0
  one_pow : ∀ {v w : K}, v == 1 → same (pow v w) 1

namespace Binary64

open Float.Model Float.Model.UnpackedFloat Scalar

/-! ## Zero and one -/

/-- What equals zero is one of the two zeros. -/
theorem exists_view_of_beq_zero {x : Float} (h : (x == 0) = true) : ∃ s, view x = .zero s := by
  rcases same_iff.mp (Scalar.same_of_beq h) with hview | ⟨s, _, hx, -⟩
  · exact ⟨.positive, hview⟩
  · exact ⟨s, hx⟩

/-- One has a single pattern. -/
theorem eq_one_of_beq {x : Float} (h : (x == 1) = true) : x = 1 := by
  rcases same_iff.mp (Scalar.same_of_beq h) with hview | ⟨_, _, -, hone⟩
  · exact eq_of_view_eq hview
  · rw [view_one] at hone
    cases hone

theorem same_of_eq {x y : Float} (h : x = y) : Scalar.same x y = true :=
  h ▸ same_iff.mpr (.refl _)

/-- Only the zeros are the same without being equal. -/
theorem eq_or_zeros {x y : Float} (h : Scalar.same x y = true) :
    x = y ∨ ((x == 0) = true ∧ (y == 0) = true) := by
  rcases same_iff.mp h with hview | ⟨s, t, hx, hy⟩
  · exact Or.inl (eq_of_view_eq hview)
  · right
    constructor
    · show (view x).beq (view 0) = true
      rw [hx]
      rfl
    · show (view y).beq (view 0) = true
      rw [hy]
      rfl

/-- A finite number is not undefined. -/
theorem isNaN_eq_false {x : Float} (h : x.isFinite = true) : x.isNaN = false := by
  have hview : (view x).isFinite = true := h
  show (view x).isNaN = false
  cases hx : view x with
  | notANumber =>
      rw [hx] at hview
      cases hview
  | _ => rfl

/-! ## Quotients -/

theorem view_div {x y : Float} {u : UnpackedFloat}
    (h : UnpackedFloat.div Format.binary64 (view x) (view y) = u) (hu : Canonical u) :
    view (x / y) = u := by
  subst h
  exact view_ofModel_pack hu

/-- No quotient by zero is finite. -/
theorem isFinite_div_zero {x y : Float} (h : (y == 0) = true) : (x / y).isFinite = false := by
  obtain ⟨s, hy⟩ := exists_view_of_beq_zero h
  have hdiv : UnpackedFloat.div Format.binary64 (view x) (view y) = .notANumber ∨
      ∃ t, UnpackedFloat.div Format.binary64 (view x) (view y) = .infinity t := by
    rw [hy]
    -- zero over zero is undefined, and so is what is undefined already
    cases view x with
    | notANumber | zero t => exact Or.inl rfl
    | infinity t | finite t => exact Or.inr ⟨t / s, rfl⟩
  show (view (x / y)).isFinite = false
  rcases hdiv with hdiv | ⟨t, hdiv⟩
  · rw [view_div hdiv trivial]
    rfl
  · rw [view_div hdiv trivial]
    rfl

/-- A quotient of zero that is finite is zero. -/
theorem same_zero_div {x y : Float} (h : (x == 0) = true) (hfinite : (x / y).isFinite = true) :
    Scalar.same (x / y) 0 = true := by
  obtain ⟨s, hx⟩ := exists_view_of_beq_zero h
  have hdiv : (∃ t, UnpackedFloat.div Format.binary64 (view x) (view y) = .zero t) ∨
      UnpackedFloat.div Format.binary64 (view x) (view y) = .notANumber := by
    rw [hx]
    cases view y with
    | notANumber | zero t => exact Or.inr rfl
    | infinity t | finite t => exact Or.inl ⟨s / t, rfl⟩
  rcases hdiv with ⟨t, hdiv⟩ | hdiv
  · exact same_iff.mpr (Or.inr ⟨t, .positive, view_div hdiv trivial, view_zero⟩)
  · have hview : (view (x / y)).isFinite = true := hfinite
    rw [view_div hdiv trivial] at hview
    cases hview

/-- A number is divided by one by shifting its mantissa to the left and back. -/
theorem divCore_one {s : Sign} {m : Nat} {e : Int} {hm : 0 < m}
    (h : Canonical (.finite s m e hm)) :
    ∃ n : Nat, divCore Format.binary64 m e (2 ^ 52) (-52) = (2 ^ n * m, e - n, .exact) := by
  have htarget := targetExponent_of_canonical hm h
  have hmin : Format.binary64.minExponent = -1074 := rfl
  have hone : totalExponent (2 ^ 52) (-52) = 1 := by decide
  simp only [Format.targetExponent, hmin, Format.mantissaBits] at htarget
  -- the exponent is lowered by one, or not at all if it is as low as it gets
  obtain ⟨n, hn⟩ : ∃ n : Nat, min (e - -52)
      (Format.binary64.targetExponent (totalExponent m e - totalExponent (2 ^ 52) (-52))) =
        e - n := by
    simp only [Format.targetExponent, hmin, hone, Format.mantissaBits]
    exact ⟨if totalExponent m e - 53 ≤ -1074 then 0 else 1, by split <;> omega⟩
  have hshift : (e - -52 - (e - n)).toNat = n + 52 := by omega
  have hmantissa : m <<< (n + 52) = 2 ^ n * m * 2 ^ 52 := by
    rw [Nat.shiftLeft_eq, Nat.pow_add, ← Nat.mul_assoc, Nat.mul_comm m]
  refine ⟨n, ?_⟩
  simp only [divCore, hn, hshift, hmantissa, Nat.mul_div_cancel _ (Nat.two_pow_pos 52),
    Nat.mul_mod_left]
  rfl

/-- A quotient by one is the dividend, since nothing is lost when it is rounded. -/
theorem div_one_view {u : UnpackedFloat} (hu : Canonical u) :
    UnpackedFloat.div Format.binary64 u (.finite .positive (2 ^ 52) (-52) (by decide)) = u := by
  cases u with
  | notANumber => rfl
  | infinity s => cases s <;> rfl
  | zero s => cases s <;> rfl
  | finite s m e hm =>
      have hsign : s / Sign.positive = s := by cases s <;> rfl
      obtain ⟨n, hcore⟩ := divCore_one hu
      simp only [UnpackedFloat.div, hsign, hcore]
      exact roundWithAccuracy_exact hu n

theorem div_one (x : Float) : x / 1 = x := by
  have hdiv := div_one_view (canonical_view x)
  rw [← view_one] at hdiv
  exact eq_of_view_eq (view_div hdiv (canonical_view x))

/-! ## Powers -/

/-- What the standard says of powers of which an operand is zero or one. Zero has the sign of either
zero here. -/
structure PowLaws (pow : Float → Float → Float) : Prop where
  pow_zero : ∀ {x y : Float}, y == 0 → pow x y = 1
  pow_one : ∀ x : Float, pow x 1 = x
  one_pow : ∀ y : Float, pow 1 y = 1
  zero_pow : ∀ {x y : Float}, x == 0 → 0 < y → pow x y == 0
  /-- The powers of zero to a negative or an undefined exponent are not finite. -/
  exponent_of_zero_pow : ∀ {x y : Float}, x == 0 → (pow x y).isFinite → y == 0 ∨ 0 < y

namespace PowLaws

variable {pow : Float → Float → Float}

/-- A power that is finite does not tell the two zeros apart, but for its own sign. -/
theorem same_pow (h : PowLaws pow) {x y x' y' : Float} (hx : Scalar.same x x' = true)
    (hy : Scalar.same y y' = true) (hfinite : (pow x y).isFinite = true) :
    Scalar.same (pow x y) (pow x' y') = true := by
  rcases eq_or_zeros hy with rfl | ⟨hy, hy'⟩
  · rcases eq_or_zeros hx with rfl | ⟨hx, hx'⟩
    · exact UnitLaws.same_refl _
    -- a base of zero has finite powers to the exponent zero and to positive exponents only
    · rcases h.exponent_of_zero_pow hx hfinite with hy | hy
      · rw [h.pow_zero hy, h.pow_zero hy]
        exact UnitLaws.same_refl _
      · have hzero := Scalar.same_of_beq (h.zero_pow hx hy)
        have hzero' := Scalar.same_of_beq (h.zero_pow hx' hy)
        exact UnitLaws.same_trans hzero (UnitLaws.same_symm hzero')
  · rw [h.pow_zero hy, h.pow_zero hy']
    exact UnitLaws.same_refl _

/-- Whether a power is finite does not depend on which zero the base or the exponent is. -/
theorem isFinite_pow_congr (h : PowLaws pow) {x y x' y' : Float} (hx : Scalar.same x x' = true)
    (hy : Scalar.same y y' = true) : (pow x y).isFinite = (pow x' y').isFinite := by
  -- by symmetry one direction is enough
  have hforward : ∀ {u v u' v' : Float}, Scalar.same u u' = true → Scalar.same v v' = true →
      (pow u v).isFinite = true → (pow u' v').isFinite = true := by
    intro u v u' v' hu hv hfinite
    rw [← isFinite_congr (same_iff.mp (h.same_pow hu hv hfinite))]
    exact hfinite
  apply Bool.eq_iff_iff.mpr
  constructor
  · exact hforward hx hy
  · exact hforward (UnitLaws.same_symm hx) (UnitLaws.same_symm hy)

/-- Double-precision numbers satisfy the laws of folding if their powers are those of the
standard. -/
theorem foldLaws (h : PowLaws pow) : @Scalar.FoldLaws Float (withPow pow) :=
  letI := withPow pow
  { congruenceLaws_withPow h.isFinite_pow_congr h.same_pow with
    isNaN_eq_false := isNaN_eq_false
    divisor_ne_zero := fun {x y} hfinite => by
      by_contra hne
      have hzero : (y == 0) = true := by simpa using hne
      have hinfinite := isFinite_div_zero (x := x) hzero
      rw [show (x / y).isFinite = true from hfinite] at hinfinite
      cases hinfinite
    div_one := fun {x y} hy => by
      obtain rfl := eq_one_of_beq hy
      exact same_of_eq (div_one x)
    zero_div := same_zero_div
    pow_zero := fun hy => same_of_eq (h.pow_zero hy)
    pow_one := fun {x y} hy => by
      obtain rfl := eq_one_of_beq hy
      exact same_of_eq (h.pow_one x)
    zero_pow := fun hx hy hfinite => by
      have hpos := (h.exponent_of_zero_pow hx hfinite).resolve_left (by simp [hy])
      exact Scalar.same_of_beq (h.zero_pow hx hpos)
    one_pow := fun {x y} hx => by
      obtain rfl := eq_one_of_beq hx
      exact same_of_eq (h.one_pow y) }

end PowLaws

/-! ## Some powers -/

theorem beq_zero_of_pos {x : Float} (h : 0 < x) : (x == 0) = false := by
  by_contra hne
  obtain ⟨s, hx⟩ := exists_view_of_beq_zero (by simpa using hne)
  have hview : Float.lt 0 x = (view 0).lt (view x) := Bool.decide_eq_true
  have hlt : Float.lt 0 x = true := h
  rw [hview, view_zero, hx] at hlt
  cases hlt

theorem beq_one_of_zero {x : Float} (h : (x == 0) = true) : (x == 1) = false := by
  by_contra hne
  obtain rfl := eq_one_of_beq (by simpa using hne)
  cases h

/-- A function for powers that knows the exponents zero, one and two, and the powers of zero and
one. -/
def smallPow (x y : Float) : Float :=
  if y == 0 then 1
  else if y == 1 then x
  else if x == 1 then 1
  else if x == 0 then (if 0 < y then 0 else if y < 0 then 1 / 0 else 0 / 0)
  else if y == 2 then x * x
  else 0 / 0

theorem powLaws_smallPow : PowLaws smallPow where
  pow_zero hy := if_pos hy
  pow_one x := by
    have hone : ((1 : Float) == 0) = false := rfl
    simp [smallPow, hone, one_beq_one]
  one_pow y := by
    unfold smallPow
    split
    · rfl
    · split <;> rfl
  zero_pow {x y} hx hy := by
    have hy0 := beq_zero_of_pos hy
    have hx1 := beq_one_of_zero hx
    by_cases hy1 : (y == 1) = true
    · simp [smallPow, hy0, hy1, hx]
    · simp [smallPow, hy0, hy1, hx1, hx, hy, zero_beq_zero]
  exponent_of_zero_pow {x y} hx hfinite := by
    have hx1 := beq_one_of_zero hx
    -- otherwise the exponent is negative or undefined, and so the power is infinite or undefined
    by_contra hne
    obtain ⟨hy0, hy⟩ := not_or.mp hne
    have hy1 : ¬ (y == 1) = true := by
      intro hy1
      obtain rfl := eq_one_of_beq hy1
      exact hy rfl
    have hinf : (1 / 0 : Float).isFinite = false := rfl
    have hnan : (0 / 0 : Float).isFinite = false := rfl
    by_cases hneg : y < 0 <;> simp [smallPow, hy0, hy1, hx1, hx, hy, hneg, hinf, hnan] at hfinite

end Binary64

end SymbolicCalculus
