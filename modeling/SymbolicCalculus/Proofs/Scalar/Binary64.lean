import Mathlib
import SymbolicCalculus.Proofs.Scalar.Laws
import SymbolicCalculus.Scalar.Binary64

/-!
# The laws of double-precision scalars

Floating-point operations are defined on numbers whose sign, mantissa and exponent are apart, and
their result is packed into 64 bits again. Packing loses nothing of a number in *canonical* form,
and every number that is unpacked is in this form. With this, the laws of zero, one and signs are
case distinctions, but for the product with one, which has to be rounded.
-/

namespace SymbolicCalculus

namespace Binary64

open Float.Model Float.Model.UnpackedFloat

/-- A double with its sign, mantissa and exponent apart. -/
def view (x : Float) : UnpackedFloat := x.toModel.unpack

/-- The mantissa fills its 53 bits, unless the exponent is the least. -/
def Canonical : UnpackedFloat → Prop
  | .finite _ m e _ => m < 2 ^ 53 ∧ -1074 ≤ e ∧ e ≤ 971 ∧ (2 ^ 52 ≤ m ∨ e = -1074)
  | _ => True

/-! ## Unpacking and packing -/

/-- The leading bit that is not stored counts `2 ^ 52`. -/
theorem toNat_append_one (m : BitVec 52) : (1#1 ++ m).toNat = 2 ^ 52 + m.toNat := by
  rw [BitVec.toNat_append, ← Nat.shiftLeft_add_eq_or_of_lt m.isLt]
  simp [Nat.shiftLeft_eq]

/-- Every pattern of bits is unpacked as a number in canonical form. -/
theorem canonical_unpack (b : BitVec Format.binary64.numBits) :
    Canonical (UnpackedFloat.unpack Format.binary64 b) := by
  have hexp : (@unpackExponent Format.binary64 b).toNat < 2 ^ 11 := BitVec.isLt _
  have hman : (@unpackMantissa Format.binary64 b).toNat < 2 ^ 52 := BitVec.isLt _
  have hbias : Format.binary64.exponentBias = 1023 := rfl
  unfold UnpackedFloat.unpack
  dsimp only
  split
  · split <;> trivial
  · next hinf =>
    -- the greatest exponent is that of infinite and undefined values
    have hlt : (@unpackExponent Format.binary64 b).toNat ≠ 2047 := fun h =>
      hinf (BitVec.eq_of_toNat_eq h)
    split
    · next hzero =>
      split
      · trivial
      · simp only [Canonical, hzero, hbias]
        -- the exponent zero is that of subnormal numbers, which have the least exponent
        refine ⟨by omega, ?_, ?_, Or.inr ?_⟩ <;> simp
    · next hzero =>
      have hpos : (@unpackExponent Format.binary64 b).toNat ≠ 0 := fun h =>
        hzero (BitVec.eq_of_toNat_eq h)
      simp only [Canonical, toNat_append_one, hbias]
      omega

/-- The sign that is packed is unpacked again. -/
theorem unpackSign_packComponents {spec : Format} (s : Sign) (e : BitVec spec.exponentBits)
    (m : BitVec spec.mantissaBitsWithoutImplicit) :
    unpackSign (packComponents spec s e m) = s.toBitVec := by
  apply BitVec.eq_of_getLsbD_eq
  intro i hi
  obtain rfl : i = 0 := by omega
  simp [unpackSign, packComponents, BitVec.getLsbD_append, BitVec.getElem_append]

theorem ofBitVec_toBitVec (s : Sign) : Sign.ofBitVec s.toBitVec = s := by
  cases s <;> rfl

/-- Fields of a number that is neither infinite nor undefined. -/
theorem unpack_packComponents_normal (s : Sign) {n m : Nat} (hn : 0 < n) (hn' : n < 2047)
    (hm : 2 ^ 52 ≤ m) (hm' : m < 2 ^ 53) (e : Int) (he : e = n - 1075) (hpos : 0 < m) :
    UnpackedFloat.unpack Format.binary64
      (packComponents Format.binary64 s (BitVec.ofNat 11 n) (BitVec.ofNat 52 m)) =
        .finite s m e hpos := by
  have hexp : (BitVec.ofNat 11 n).toNat = n := by
    rw [BitVec.toNat_ofNat, Nat.mod_eq_of_lt (by omega)]
  -- the field is not one of the two that have a meaning of their own
  have hinf : BitVec.ofNat 11 n ≠ -1#11 := fun h => by
    have := congrArg BitVec.toNat h
    rw [hexp] at this
    simp at this
    omega
  have hzero : BitVec.ofNat 11 n ≠ 0#11 := fun h => by
    have := congrArg BitVec.toNat h
    rw [hexp] at this
    simp at this
    omega
  have hman : (1#1 ++ BitVec.ofNat 52 m).toNat = m := by
    rw [toNat_append_one, BitVec.toNat_ofNat]
    omega
  have hbias : Format.binary64.exponentBias = 1023 := rfl
  simp only [UnpackedFloat.unpack, unpackMantissa_packComponents, unpackExponent_packComponents,
    unpackSign_packComponents, ofBitVec_toBitVec, hinf, hzero, if_false, hexp, hman, hbias]
  congr 1
  omega

/-- Fields of a number with the least exponent whose mantissa is not full. -/
theorem unpack_packComponents_subnormal (s : Sign) {m : Nat} (hm : 0 < m) (hm' : m < 2 ^ 52) :
    UnpackedFloat.unpack Format.binary64
      (packComponents Format.binary64 s 0#11 (BitVec.ofNat 52 m)) = .finite s m (-1074) hm := by
  have hman : (BitVec.ofNat 52 m).toNat = m := by
    rw [BitVec.toNat_ofNat, Nat.mod_eq_of_lt hm']
  have hzero : BitVec.ofNat 52 m ≠ 0#52 := fun h => by
    have := congrArg BitVec.toNat h
    rw [hman] at this
    simp at this
    omega
  have hinf : (0#11) ≠ -1#11 := by decide
  have hbias : Format.binary64.exponentBias = 1023 := rfl
  simp only [UnpackedFloat.unpack, unpackMantissa_packComponents, unpackExponent_packComponents,
    unpackSign_packComponents, ofBitVec_toBitVec, hinf, hzero, if_false, if_true, dite_false, hman,
    hbias]
  congr 1

/-- A canonical number is packed as a normal or as a subnormal one. -/
theorem pack_finite {s : Sign} {m : Nat} {e : Int} {hm : 0 < m} (h : Canonical (.finite s m e hm)) :
    UnpackedFloat.pack Format.binary64 (.finite s m e hm) =
      if 2 ^ 52 ≤ m then
        packComponents Format.binary64 s (BitVec.ofNat 11 (e + 1075).toNat) (BitVec.ofNat 52 m)
      else packComponents Format.binary64 s 0#11 (BitVec.ofNat 52 m) := by
  obtain ⟨hlt, hlo, hhi, -⟩ := h
  have hbias : Format.binary64.exponentBias = 1023 := rfl
  have hexp : e + (1023 : Nat) + (52 : Nat) = e + 1075 := by omega
  -- the mantissa is full if it has 53 bits
  have hlog : m.log2 + 1 = 1 + 52 ↔ 2 ^ 52 ≤ m := by
    have hle : 52 ≤ m.log2 ↔ 2 ^ 52 ≤ m := Nat.le_log2 (Nat.ne_of_gt hm)
    have := (Nat.log2_lt (Nat.ne_of_gt hm)).mpr hlt
    omega
  simp only [UnpackedFloat.pack, hbias, Format.mantissaBits, hlog, hexp]
  exact if_neg (by omega)

/-- **Packing loses nothing** of a number in canonical form. -/
theorem unpack_pack {u : UnpackedFloat} (h : Canonical u) :
    UnpackedFloat.unpack Format.binary64 (UnpackedFloat.pack Format.binary64 u) = u := by
  cases u with
  | notANumber => rfl
  | infinity s => cases s <;> rfl
  | zero s => cases s <;> rfl
  | finite s m e hm =>
      rw [pack_finite h]
      obtain ⟨hlt, hlo, hhi, hfull⟩ := h
      split
      · next hfull =>
        exact unpack_packComponents_normal s (by omega) (by omega) hfull hlt e (by omega) hm
      · next hpart =>
        obtain rfl := hfull.resolve_left hpart
        exact unpack_packComponents_subnormal s hm (by omega)

/-! ## Numbers and their views -/

theorem canonical_view (x : Float) : Canonical (view x) := canonical_unpack _

/-- A canonical number is seen again after it is packed. -/
theorem view_ofModel_pack {u : UnpackedFloat} (h : Canonical u) :
    view (.ofModel (Float.Model.pack u)) = u := unpack_pack h

theorem zero_beq_zero : ((0 : Float) == 0) = true := rfl

theorem one_beq_one : ((1 : Float) == 1) = true := rfl

theorem one_beq_zero : ((1 : Float) == 0) = false := rfl

theorem view_zero : view 0 = .zero .positive := by
  rfl

theorem view_one : view 1 = .finite .positive (2 ^ 52) (-52) (by decide) := by
  rfl

/-! ## Signs -/

theorem Canonical.neg {u : UnpackedFloat} (h : Canonical u) : Canonical u.neg := by
  cases u <;> exact h

theorem Canonical.abs {u : UnpackedFloat} (h : Canonical u) : Canonical u.abs := by
  cases u <;> exact h

theorem view_neg (x : Float) : view (-x) = (view x).neg :=
  view_ofModel_pack (canonical_view x).neg

theorem neg_neg_view (u : UnpackedFloat) : u.neg.neg = u := by
  cases u with
  | notANumber => rfl
  | infinity s | zero s | finite s => cases s <;> rfl

/-! ## Equality -/

/-- Two numbers are the same if they are seen alike, signs of zeros aside. -/
def SameView (u v : UnpackedFloat) : Prop :=
  u = v ∨ ∃ s t, u = .zero s ∧ v = .zero t

theorem compare_finite_eq_iff {s t : Sign} {m n : Nat} {e f : Int} (hm : 0 < m) (hn : 0 < n) :
    (UnpackedFloat.compare (.finite s m e hm) (.finite t n f hn) == some .eq) = true ↔
      (UnpackedFloat.finite s m e hm) = .finite t n f hn := by
  cases s <;> cases t <;> simp [UnpackedFloat.compare, Ordering.then_eq_eq, and_comm]

/-- The comparison of scalars, which has undefined values equal to each other, tells whether they
are seen alike. -/
theorem sameView_iff (u v : UnpackedFloat) :
    (u.beq v || (u.isNaN && v.isNaN)) = true ↔ SameView u v := by
  unfold SameView UnpackedFloat.beq
  -- values of two different kinds are never equal, whatever their signs are
  cases u with
  | notANumber => cases v <;> simp [UnpackedFloat.compare, UnpackedFloat.isNaN]
  | infinity s =>
      cases v with
      | infinity t =>
          cases s <;> cases t <;> simp [UnpackedFloat.compare, UnpackedFloat.isNaN, compare]
      | _ => cases s <;> simp [UnpackedFloat.compare, UnpackedFloat.isNaN]
  | zero s =>
      cases v with
      | zero t => simp [UnpackedFloat.compare, UnpackedFloat.isNaN]
      | infinity t | finite t => cases t <;> simp [UnpackedFloat.compare, UnpackedFloat.isNaN]
      | notANumber => simp [UnpackedFloat.compare, UnpackedFloat.isNaN]
  | finite s m e hm =>
      cases v with
      | finite t n f hn => simpa [UnpackedFloat.isNaN] using compare_finite_eq_iff hm hn
      | infinity t => cases s <;> cases t <;> simp [UnpackedFloat.compare, UnpackedFloat.isNaN]
      | _ => cases s <;> simp [UnpackedFloat.compare, UnpackedFloat.isNaN]

/-- Doubles are the same as scalars if and only if they are seen alike. -/
theorem same_iff {x y : Float} : Scalar.same x y = true ↔ SameView (view x) (view y) :=
  sameView_iff (view x) (view y)

theorem SameView.refl (u : UnpackedFloat) : SameView u u := Or.inl rfl

theorem SameView.symm {u v : UnpackedFloat} (h : SameView u v) : SameView v u := by
  rcases h with rfl | ⟨s, t, rfl, rfl⟩
  · exact Or.inl rfl
  · exact Or.inr ⟨t, s, rfl, rfl⟩

theorem SameView.trans {u v w : UnpackedFloat} (huv : SameView u v) (hvw : SameView v w) :
    SameView u w := by
  rcases huv with rfl | ⟨s, t, rfl, rfl⟩
  · exact hvw
  · rcases hvw with rfl | ⟨t, r, ht, rfl⟩
    · exact Or.inr ⟨s, _, rfl, rfl⟩
    · exact Or.inr ⟨s, r, rfl, rfl⟩

theorem SameView.neg {u v : UnpackedFloat} (h : SameView u v) : SameView u.neg v.neg := by
  rcases h with rfl | ⟨s, t, rfl, rfl⟩
  · exact Or.inl rfl
  · exact Or.inr ⟨-s, -t, rfl, rfl⟩

/-! ## Sums with zero -/

/-- A sum with zero is the other number, but for the sign of a zero. -/
theorem zero_add_view {u : UnpackedFloat} :
    SameView (UnpackedFloat.add Format.binary64 (.zero .positive) u) u := by
  cases u with
  | zero s => exact Or.inr ⟨.positive, s, by cases s <;> rfl, rfl⟩
  | _ => exact Or.inl rfl

/-- A difference from zero is the negated number, but for the sign of a zero. -/
theorem zero_sub_view {u : UnpackedFloat} :
    SameView (UnpackedFloat.sub Format.binary64 (.zero .positive) u) u.neg := by
  cases u with
  | zero s => exact Or.inr ⟨.positive, -s, by cases s <;> rfl, rfl⟩
  | _ => exact Or.inl rfl

/-- The form can be read off either of two numbers that are the same. -/
theorem SameView.canonical {u v : UnpackedFloat} (h : SameView u v) (hv : Canonical v) :
    Canonical u := by
  rcases h with rfl | ⟨s, t, rfl, rfl⟩
  · exact hv
  · trivial

/-! ## Rounding -/

/-- A mantissa that ends in zeros loses nothing when they are shifted out. -/
theorem shiftRight_exact (m n : Nat) :
    (⟨2 ^ n * m, false, false⟩ : ExtendedMantissa) >>> n = ⟨m, false, false⟩ := by
  show n.repeat ExtendedMantissa.shiftRightOne ⟨2 ^ n * m, false, false⟩ = ⟨m, false, false⟩
  induction n generalizing m with
  | zero => simp [Nat.repeat]
  | succ n ih =>
      have hpow : 2 ^ (n + 1) * m = 2 ^ n * (2 * m) := by rw [Nat.pow_succ, Nat.mul_assoc]
      rw [Nat.repeat, hpow, ih]
      simp [ExtendedMantissa.shiftRightOne]

/-- The exponent of a canonical number is the one that rounding aims at. -/
theorem targetExponent_of_canonical {m : Nat} {e : Int} (hm : 0 < m) {s : Sign}
    (h : Canonical (.finite s m e hm)) :
    Format.binary64.targetExponent (totalExponent m e) = e := by
  obtain ⟨hlt, hlo, hhi, hfull⟩ := h
  have hmin : Format.binary64.minExponent = -1074 := rfl
  have hlog := (Nat.log2_lt (Nat.ne_of_gt hm)).mpr hlt
  have hle : 52 ≤ m.log2 ↔ 2 ^ 52 ≤ m := Nat.le_log2 (Nat.ne_of_gt hm)
  simp only [Format.targetExponent, hmin, totalExponent, Format.mantissaBits]
  omega

/-- Shifting to the exponent that the mantissa had before is exact. -/
theorem shiftToExponent_exact (m n : Nat) (e : Int) :
    shiftToExponent (2 ^ n * m) (e - n) .exact e = (⟨m, false, false⟩, e) := by
  have hamount : (e - (e - n)).toNat = n := by omega
  simp only [shiftToExponent, hamount, ExtendedMantissa.ofMantissaAndAccuracy, shiftRight_exact]
  congr 1
  omega

/-- Zeros at the end of a mantissa do not change the magnitude of a number. -/
theorem totalExponent_shift {m : Nat} (hm : 0 < m) (n : Nat) (e : Int) :
    totalExponent (2 ^ n * m) (e - n) = totalExponent m e := by
  have hlog : (2 ^ n * m).log2 = n + m.log2 := by
    have hlow := Nat.log2_self_le (Nat.ne_of_gt hm)
    have hhigh := @Nat.lt_log2_self m
    refine (Nat.log2_eq_iff (Nat.ne_of_gt (Nat.mul_pos (Nat.two_pow_pos n) hm))).mpr ⟨?_, ?_⟩
    · rw [Nat.pow_add]
      exact Nat.mul_le_mul_left _ hlow
    · rw [Nat.add_assoc, Nat.pow_add]
      exact Nat.mul_lt_mul_of_pos_left hhigh (Nat.two_pow_pos n)
  rw [totalExponent, totalExponent, hlog]
  omega

/-- A canonical number with zeros put at the end of its mantissa is rounded to itself. -/
theorem roundWithAccuracy_exact {s : Sign} {m : Nat} {e : Int} {hm : 0 < m}
    (h : Canonical (.finite s m e hm)) (n : Nat) :
    roundWithAccuracy Format.binary64 s (2 ^ n * m) (e - n) .exact = .finite s m e hm := by
  have htarget := targetExponent_of_canonical hm h
  have hlast := shiftToExponent_exact m 0 e
  rw [Nat.pow_zero, Nat.one_mul, Int.ofNat_zero, Int.sub_zero] at hlast
  simp only [roundWithAccuracy, shiftToTargetExponent, totalExponent_shift hm, htarget,
    shiftToExponent_exact]
  simp [ExtendedMantissa.roundedMantissa, ExtendedMantissa.accuracy, Accuracy.roundToNearestEven,
    htarget, hlast, (Nat.ne_of_gt hm)]

/-- The mantissa of one puts 52 zeros at the end of the other, which rounding takes away again. -/
theorem one_mul_view {u : UnpackedFloat} (hu : Canonical u) :
    UnpackedFloat.mul Format.binary64 (.finite .positive (2 ^ 52) (-52) (by decide)) u = u := by
  cases u with
  | notANumber => rfl
  | infinity s => cases s <;> rfl
  | zero s => cases s <;> rfl
  | finite s m e hm =>
      have hsign : Sign.positive * s = s := by cases s <;> rfl
      have hround := roundWithAccuracy_exact hu 52
      have hexponent : (-52 : Int) + e = e - (52 : Nat) := by omega
      simp only [UnpackedFloat.mul, hsign, hexponent, hround]

/-! ## Tests -/

/-- The number is finite or infinite, and its sign is minus. -/
def IsNegView : UnpackedFloat → Prop
  | .infinity .negative => True
  | .finite .negative _ _ _ => True
  | _ => False

/-- A number is negative if it is seen so. Zero is not, whatever its sign is. -/
theorem isNeg_iff (x : Float) : Scalar.isNeg x = true ↔ IsNegView (view x) := by
  have hlt : x.lt 0 = (view x).lt (view 0) := Bool.decide_eq_true
  have hdecide : Scalar.isNeg x = x.lt 0 := Bool.decide_eq_true
  rw [hdecide, hlt, view_zero]
  cases view x with
  | notANumber | zero s => simp [UnpackedFloat.lt, UnpackedFloat.compare, IsNegView]
  | infinity s | finite s =>
      cases s <;> simp [UnpackedFloat.lt, UnpackedFloat.compare, IsNegView]

/-- Numbers that are the same are negative alike. -/
theorem SameView.isNegView_iff {u v : UnpackedFloat} (h : SameView u v) :
    IsNegView u ↔ IsNegView v := by
  rcases h with rfl | ⟨s, t, rfl, rfl⟩
  · exact Iff.rfl
  · exact Iff.rfl

/-- No number is negative together with its negation. -/
theorem not_isNegView_neg {u : UnpackedFloat} (h : IsNegView u) : ¬ IsNegView u.neg := by
  cases u with
  | notANumber | zero s => cases h
  | infinity s | finite s =>
      cases s
      · exact fun h => h
      · cases h

/-- Comparison does not see the sign of a zero. -/
theorem beq_congr {x y : Float} (h : SameView (view x) (view y)) (z : Float) :
    (x == z) = (y == z) := by
  show (view x).beq (view z) = (view y).beq (view z)
  rcases h with h | ⟨s, t, hx, hy⟩
  · rw [h]
  · rw [hx, hy]
    cases view z with
    | notANumber | zero r => rfl
    | infinity r | finite r => cases r <;> rfl

/-- Undefined values are the same as each other only. -/
theorem isNaN_congr {x y : Float} (h : SameView (view x) (view y)) : x.isNaN = y.isNaN := by
  show (view x).isNaN = (view y).isNaN
  rcases h with h | ⟨s, t, hx, hy⟩
  · rw [h]
  · rw [hx, hy]
    rfl

/-- Negation makes no zero and loses none. -/
theorem neg_beq_zero (x : Float) : (-x == 0) = (x == 0) := by
  show (view (-x)).beq (view 0) = (view x).beq (view 0)
  rw [view_neg, view_zero]
  cases view x with
  | notANumber | zero s => rfl
  | infinity s | finite s => cases s <;> rfl

/-! ## Arithmetic on numbers that are the same -/

/-- Only the sign of a zero is lost when a result is packed. -/
theorem SameView.pack {u v : UnpackedFloat} (h : SameView u v) :
    SameView (view (.ofModel (Float.Model.pack u))) (view (.ofModel (Float.Model.pack v))) := by
  rcases h with rfl | ⟨s, t, rfl, rfl⟩
  · exact .refl _
  · rw [view_ofModel_pack (u := .zero s) trivial, view_ofModel_pack (u := .zero t) trivial]
    exact Or.inr ⟨s, t, rfl, rfl⟩

variable {spec : Format} {u v u' v' : UnpackedFloat}

theorem SameView.zeros (hu : ∃ s, u = .zero s) (hv : ∃ s, v = .zero s) : SameView u v := by
  obtain ⟨s, rfl⟩ := hu
  obtain ⟨t, rfl⟩ := hv
  exact Or.inr ⟨s, t, rfl, rfl⟩

theorem add_zero_zero (s t : Sign) :
    ∃ r, UnpackedFloat.add spec (.zero s) (.zero t) = .zero r := by
  cases s <;> cases t <;> exact ⟨_, rfl⟩

theorem sub_zero_zero (s t : Sign) :
    ∃ r, UnpackedFloat.sub spec (.zero s) (.zero t) = .zero r := by
  cases s <;> cases t <;> exact ⟨_, rfl⟩

/-- The sign of a zero does not matter to a sum, but for that of another zero. -/
theorem SameView.add (hu : SameView u u') (hv : SameView v v') :
    SameView (UnpackedFloat.add spec u v) (UnpackedFloat.add spec u' v') := by
  -- the summands are replaced one after the other
  have hleft : SameView (UnpackedFloat.add spec u v) (UnpackedFloat.add spec u' v) := by
    rcases hu with rfl | ⟨s, t, rfl, rfl⟩
    · exact .refl _
    · cases v with
      | zero r => exact .zeros (add_zero_zero s r) (add_zero_zero t r)
      | _ => exact .refl _
  have hright : SameView (UnpackedFloat.add spec u' v) (UnpackedFloat.add spec u' v') := by
    rcases hv with rfl | ⟨s, t, rfl, rfl⟩
    · exact .refl _
    · cases u' with
      | zero r => exact .zeros (add_zero_zero r s) (add_zero_zero r t)
      | _ => exact .refl _
  exact hleft.trans hright

/-- Nor does it matter to a difference. -/
theorem SameView.sub (hu : SameView u u') (hv : SameView v v') :
    SameView (UnpackedFloat.sub spec u v) (UnpackedFloat.sub spec u' v') := by
  have hleft : SameView (UnpackedFloat.sub spec u v) (UnpackedFloat.sub spec u' v) := by
    rcases hu with rfl | ⟨s, t, rfl, rfl⟩
    · exact .refl _
    · cases v with
      | zero r => exact .zeros (sub_zero_zero s r) (sub_zero_zero t r)
      | _ => exact .refl _
  have hright : SameView (UnpackedFloat.sub spec u' v) (UnpackedFloat.sub spec u' v') := by
    rcases hv with rfl | ⟨s, t, rfl, rfl⟩
    · exact .refl _
    · cases u' with
      | zero r => exact .zeros (sub_zero_zero r s) (sub_zero_zero r t)
      | _ => exact .refl _
  exact hleft.trans hright

/-- The sign of a zero decides the sign of a product that is zero, and nothing else. -/
theorem SameView.mul (hu : SameView u u') (hv : SameView v v') :
    SameView (UnpackedFloat.mul spec u v) (UnpackedFloat.mul spec u' v') := by
  have hleft : SameView (UnpackedFloat.mul spec u v) (UnpackedFloat.mul spec u' v) := by
    rcases hu with rfl | ⟨s, t, rfl, rfl⟩
    · exact .refl _
    · cases v with
      -- a product with an infinite value is undefined for either zero
      | zero r | finite r => exact .zeros ⟨_, rfl⟩ ⟨_, rfl⟩
      | _ => exact .refl _
  have hright : SameView (UnpackedFloat.mul spec u' v) (UnpackedFloat.mul spec u' v') := by
    rcases hv with rfl | ⟨s, t, rfl, rfl⟩
    · exact .refl _
    · cases u' with
      | zero r | finite r => exact .zeros ⟨_, rfl⟩ ⟨_, rfl⟩
      | _ => exact .refl _
  exact hleft.trans hright

/-- The divisor is other than zero, since the quotients by the two zeros differ. -/
theorem SameView.div (hu : SameView u u') (hv : SameView v v')
    (hzero : v.beq (.zero .positive) = false) :
    SameView (UnpackedFloat.div spec u v) (UnpackedFloat.div spec u' v') := by
  obtain rfl : v = v' := hv.resolve_right fun ⟨s, t, hs, _⟩ => by simp [hs, UnpackedFloat.beq,
    UnpackedFloat.compare] at hzero
  rcases hu with rfl | ⟨s, t, rfl, rfl⟩
  · exact .refl _
  · cases v with
    | infinity r | finite r => exact .zeros ⟨_, rfl⟩ ⟨_, rfl⟩
    | _ => exact .refl _

/-! ## The laws -/

/-- Double-precision scalars with the given function in the place of `Float.pow`, which is not
defined in the logic. -/
@[reducible] def withPow (pow : Float → Float → Float) : Scalar Float :=
  { instScalarFloat with pow := pow }

/-- Double-precision numbers satisfy the laws of zero, one, signs and tests, whatever their powers
are. -/
theorem testLaws_withPow (pow : Float → Float → Float) : @Scalar.TestLaws Float (withPow pow) :=
  letI := withPow pow
  { same_refl := fun x => same_iff.mpr (.refl _)
    same_symm := fun h => same_iff.mpr (same_iff.mp h).symm
    same_trans := fun h h' => same_iff.mpr ((same_iff.mp h).trans (same_iff.mp h'))
    one_beq_one := one_beq_one
    zero_beq_zero := zero_beq_zero
    one_beq_zero := one_beq_zero
    zero_add := fun x => by
      have hview : view (0 + x) = UnpackedFloat.add Format.binary64 (.zero .positive) (view x) :=
        view_ofModel_pack (zero_add_view.canonical (canonical_view x))
      exact same_iff.mpr (hview ▸ zero_add_view)
    zero_sub := fun x => by
      have hview : view (0 - x) = UnpackedFloat.sub Format.binary64 (.zero .positive) (view x) :=
        view_ofModel_pack (zero_sub_view.canonical (canonical_view x).neg)
      refine same_iff.mpr ?_
      rw [hview, view_neg]
      exact zero_sub_view
    one_mul := fun x => by
      have hmul := one_mul_view (canonical_view x)
      have hview : view (1 * x) = view x :=
        (view_ofModel_pack (hmul.symm ▸ canonical_view x)).trans hmul
      exact same_iff.mpr (Or.inl hview)
    neg_neg := fun x => same_iff.mpr (Or.inl (by rw [view_neg, view_neg, neg_neg_view]))
    neg_congr := fun h => same_iff.mpr (by rw [view_neg, view_neg]; exact (same_iff.mp h).neg)
    isNeg_congr := fun h =>
      Bool.eq_iff_iff.mpr
        ((isNeg_iff _).trans ((same_iff.mp h).isNegView_iff.trans (isNeg_iff _).symm))
    beq_congr := fun h => beq_congr (same_iff.mp h)
    isNaN_congr := fun h => isNaN_congr (same_iff.mp h)
    isNeg_neg := fun {x} h => by
      have hneg := not_isNegView_neg ((isNeg_iff x).mp h)
      rw [← view_neg, ← isNeg_iff] at hneg
      exact Bool.eq_false_iff.mpr hneg
    neg_beq_zero := neg_beq_zero }

instance : Scalar.TestLaws Float := testLaws_withPow Float.pow

/-- Double-precision numbers satisfy the laws of arithmetic on numbers that are the same, as far as
their powers do. -/
theorem congruenceLaws_withPow {pow : Float → Float → Float}
    (hfinite : ∀ {v w v' w' : Float}, Scalar.same v v' → Scalar.same w w' →
      (pow v w).isFinite = (pow v' w').isFinite)
    (hpow : ∀ {v w v' w' : Float}, Scalar.same v v' → Scalar.same w w' → (pow v w).isFinite →
      Scalar.same (pow v w) (pow v' w')) : @Scalar.CongruenceLaws Float (withPow pow) :=
  letI := withPow pow
  { testLaws_withPow pow with
    add_congr := fun hv hw => same_iff.mpr ((same_iff.mp hv).add (same_iff.mp hw)).pack
    sub_congr := fun hv hw => same_iff.mpr ((same_iff.mp hv).sub (same_iff.mp hw)).pack
    mul_congr := fun hv hw => same_iff.mpr ((same_iff.mp hv).mul (same_iff.mp hw)).pack
    div_congr := fun hv hw hzero =>
      same_iff.mpr ((same_iff.mp hv).div (same_iff.mp hw) (view_zero ▸ hzero)).pack
    isFinite_pow_congr := hfinite
    pow_congr := hpow }

/-- A function for powers that knows the squares alone. -/
def squareOnly (x y : Float) : Float := if y == 2 then x * x else 0 / 0

/-- Squares of numbers that are the same are the same. -/
theorem same_squareOnly {v w v' w' : Float} (hv : Scalar.same v v') (hw : Scalar.same w w') :
    Scalar.same (squareOnly v w) (squareOnly v' w') := by
  unfold squareOnly
  rw [beq_congr (same_iff.mp hw)]
  split
  · exact same_iff.mpr ((same_iff.mp hv).mul (same_iff.mp hv)).pack
  · exact same_iff.mpr (.refl _)

/-- Numbers that are the same are finite alike. -/
theorem isFinite_congr {x y : Float} (h : SameView (view x) (view y)) :
    x.isFinite = y.isFinite := by
  show (view x).isFinite = (view y).isFinite
  rcases h with h | ⟨s, t, hx, hy⟩
  · rw [h]
  · rw [hx, hy]
    rfl

theorem congruenceLaws_squareOnly : @Scalar.CongruenceLaws Float (withPow squareOnly) :=
  congruenceLaws_withPow (fun hv hw => isFinite_congr (same_iff.mp (same_squareOnly hv hw)))
    (fun hv hw _ => same_squareOnly hv hw)

end Binary64

end SymbolicCalculus
