import Mathlib
import SymbolicCalculus.Proofs.Scalar.Binary64
import SymbolicCalculus.Proofs.Scalar.Literals

/-!
# The notation of doubles

Reading a numeral only packs, multiplies and divides numbers whose sign is not minus, so what is
read has no minus either. The notation of a double depends on its view alone, and a negative number
differs from its magnitude in the sign of the view, which is what is written before the digits.
-/

namespace SymbolicCalculus

namespace Binary64

open Float.Model Float.Model.UnpackedFloat

/-! ## Signs of packed numbers -/

/-- The sign of a number. What is undefined has no minus. -/
def sign : UnpackedFloat → Sign
  | .notANumber => .positive
  | .infinity s => s
  | .zero s => s
  | .finite s _ _ _ => s

/-- The first bit of what is packed is its sign. -/
theorem unpackSign_pack (spec : Format) (u : UnpackedFloat) :
    unpackSign (UnpackedFloat.pack spec u) = (sign u).toBitVec := by
  cases u with
  | notANumber => exact unpackSign_packComponents _ _ _
  | infinity s | zero s => exact unpackSign_packComponents _ _ _
  | finite s m e hm =>
      simp only [UnpackedFloat.pack]
      split
      · exact unpackSign_packComponents _ _ _
      · split <;> exact unpackSign_packComponents _ _ _

theorem sign_unpack {spec : Format} {b : BitVec spec.numBits} (h : unpackSign b = 0#1) :
    sign (UnpackedFloat.unpack spec b) = .positive := by
  have hsign : Sign.ofBitVec (unpackSign b) = .positive := by rw [h]; rfl
  simp only [UnpackedFloat.unpack, hsign]
  repeat' split
  all_goals rfl

/-- No minus appears when a number is packed. -/
theorem sign_view_pack {u : UnpackedFloat} (h : sign u = .positive) :
    sign (view (.ofModel (Float.Model.pack u))) = .positive := by
  refine sign_unpack ?_
  exact (unpackSign_pack Format.binary64 u).trans (by rw [h]; rfl)

/-! ## Signs of what is read -/

/-- Rounding keeps the sign. -/
theorem sign_roundWithAccuracy (spec : Format) (s : Sign) (m : Nat) (e : Int) (a : Accuracy) :
    sign (roundWithAccuracy spec s m e a) = s := by
  simp only [roundWithAccuracy]
  split <;> rfl

variable {u v : UnpackedFloat} {spec : Format}

theorem sign_mul (hu : sign u = .positive) (hv : sign v = .positive) :
    sign (UnpackedFloat.mul spec u v) = .positive := by
  cases u <;> cases v <;> cases hu <;> cases hv <;> first
    | rfl
    | exact sign_roundWithAccuracy _ _ _ _ _

theorem sign_div (hu : sign u = .positive) (hv : sign v = .positive) :
    sign (UnpackedFloat.div spec u v) = .positive := by
  cases u <;> cases v <;> cases hu <;> cases hv <;> first
    | rfl
    | exact sign_roundWithAccuracy _ _ _ _ _

theorem sign_ofNat (n : Nat) : sign (UnpackedFloat.ofNat spec n) = .positive := by
  unfold UnpackedFloat.ofNat UnpackedFloat.ofInt UnpackedFloat.normalize
  split
  · next h =>
    rw [Int.compare_eq_lt] at h
    omega
  · rfl
  · exact sign_roundWithAccuracy _ _ _ _ _

/-- Scaling by a power of ten multiplies or divides by a number without a minus. -/
theorem sign_ofScientific (m : Nat) (e : Int) :
    sign (UnpackedFloat.ofScientific spec m e) = .positive := by
  unfold UnpackedFloat.ofScientific
  repeat' split
  · rfl
  · rfl
  · rfl
  · exact sign_mul rfl rfl
  · exact sign_div rfl rfl

/-- The powers of ten that are doubles have no minus. -/
theorem unpackSign_powersOfTen : ∀ e : Fin 23,
    @unpackSign Format.binary64
      Float.exactlyRepresentablePowersOfTen[e.val].toModel.toBits.toBitVec = 0#1 := by
  decide +kernel

/-- What is read from a numeral has no minus. -/
theorem sign_view_ofScientific (digits places : Nat) :
    sign (view (Float.ofScientific digits true places)) = .positive := by
  unfold Float.ofScientific
  split
  · next h =>
    -- a short numeral is read as the quotient of two doubles
    have hten := sign_unpack (unpackSign_powersOfTen ⟨places, by omega⟩)
    have hdigits : sign (view digits.toUInt64.toFloat) = .positive :=
      sign_view_pack (sign_ofNat _)
    exact sign_view_pack (sign_div hdigits hten)
  · exact sign_view_pack (sign_ofScientific _ _)

/-! ## The fields of a view -/

/-- The mantissa field is made of the last 52 bits. -/
theorem toNat_unpackMantissa (bits : UInt64) :
    (@unpackMantissa Format.binary64 bits.toBitVec).toNat = bits.toNat % Nat.pow 2 52 := by
  have h := BitVec.extractLsb_toNat 51 0 bits.toBitVec
  rw [Nat.shiftRight_zero] at h
  exact h

/-- The exponent field is made of the 11 bits before them. -/
theorem toNat_unpackExponent (bits : UInt64) :
    (@unpackExponent Format.binary64 bits.toBitVec).toNat =
      bits.toNat / Nat.pow 2 52 % Nat.pow 2 11 := by
  have h := BitVec.extractLsb_toNat 62 52 bits.toBitVec
  rw [Nat.shiftRight_eq_div_pow] at h
  exact h

/-- The sign is the first bit. -/
theorem toNat_unpackSign (bits : UInt64) :
    (@unpackSign Format.binary64 bits.toBitVec).toNat = bits.toNat / Nat.pow 2 63 := by
  have h := BitVec.extractLsb_toNat 63 63 bits.toBitVec
  rw [Nat.shiftRight_eq_div_pow] at h
  have hlt : bits.toNat < 2 ^ 64 := bits.toNat_lt
  have hmod : bits.toNat / 2 ^ 63 % 2 = bits.toNat / 2 ^ 63 := by omega
  exact h.trans hmod

/-- The text with the sign before it. -/
def withSign : Sign → String → String
  | .negative, text => "-" ++ text
  | .positive, text => text

/-- The magnitude of a number that is seen with the mantissa and the exponent. -/
def ofMantissa (m : Nat) (e : Int) : BinaryNumber := ⟨m, e, m == Nat.pow 2 52 && e != -1074⟩

theorem ofBitVec_unpackSign (x : Float) :
    Sign.ofBitVec (@unpackSign Format.binary64 x.toModel.toBits.toBitVec) =
      if signBit x then .negative else .positive := by
  have hone : ∀ b : BitVec 1, b = 0#1 ∧ (b.toNat == 1) = false ∨ b ≠ 0#1 ∧ (b.toNat == 1) := by
    decide
  have hsign : _ = x.toBits.toNat / Nat.pow 2 63 := toNat_unpackSign x.toModel.toBits
  unfold signBit Sign.ofBitVec
  rw [← hsign]
  rcases hone (@unpackSign Format.binary64 x.toModel.toBits.toBitVec) with ⟨h, h'⟩ | ⟨h, h'⟩
  · rw [h', if_pos h]
    rfl
  · rw [h', if_neg h]
    rfl

/-- The sign bit of a number is the sign of its view. -/
theorem sign_view {x : Float} (h : x.isNaN = false) :
    sign (view x) = if signBit x then .negative else .positive := by
  replace h : (UnpackedFloat.unpack Format.binary64 x.toModel.toBits.toBitVec).isNaN = false := h
  rw [← ofBitVec_unpackSign]
  show sign (UnpackedFloat.unpack Format.binary64 x.toModel.toBits.toBitVec) = _
  revert h
  unfold UnpackedFloat.unpack
  dsimp only
  -- every kind of number but the undefined value has the sign that its first bit tells
  split
  · split
    · exact fun _ => rfl
    · exact fun h => by cases h
  · split
    · split <;> exact fun _ => rfl
    · exact fun _ => rfl

/-- The magnitude of a number is found in its view. -/
theorem binaryNumber_of_view {x : Float} {s : Sign} {m : Nat} {e : Int} {hm : 0 < m}
    (h : view x = .finite s m e hm) : binaryNumber x = ofMantissa m e := by
  have hbias : Format.binary64.exponentBias = 1023 := rfl
  have hmantissa : _ = mantissaField x := toNat_unpackMantissa x.toModel.toBits
  have hexponent : _ = exponentField x := toNat_unpackExponent x.toModel.toBits
  have hlt : mantissaField x < 2 ^ 52 := Nat.mod_lt _ (Nat.two_pow_pos 52)
  replace h : UnpackedFloat.unpack Format.binary64 x.toModel.toBits.toBitVec = _ := h
  unfold UnpackedFloat.unpack at h
  dsimp only at h
  unfold binaryNumber ofMantissa
  -- the cases are those of the exponent field: infinite and undefined, subnormal, normal
  split at h
  · split at h <;> cases h
  · split at h
    · next hzero =>
      split at h
      · cases h
      · obtain ⟨-, rfl, rfl⟩ := UnpackedFloat.finite.inj h
        have hfield : exponentField x = 0 := by
          rw [← hexponent, hzero]
          rfl
        have hne : (mantissaField x == Nat.pow 2 52) = false :=
          beq_eq_false_iff_ne.mpr (Nat.ne_of_lt hlt)
        rw [hfield, hmantissa, hne]
        simp [hexponent, hfield, hbias]
    · next hzero =>
      obtain ⟨-, rfl, rfl⟩ := UnpackedFloat.finite.inj h
      -- a normal number has a field that is not zero, which counts from one
      obtain ⟨n, hn⟩ : ∃ n, exponentField x = n + 1 := by
        refine Nat.exists_eq_add_one_of_ne_zero fun h => hzero (BitVec.eq_of_toNat_eq ?_)
        exact hexponent.trans h
      have hclose : (mantissaField x == 0 && n != 0) =
          (2 ^ 52 + mantissaField x == 2 ^ 52 && (n : Int) - 1074 != -1074) := by
        rw [Bool.eq_iff_iff]
        simp
      have hunit : ((n + 1 : Nat) : Int) - (1023 + 52) = n - 1074 := by omega
      rw [toNat_append_one, hmantissa, hexponent, hbias, hn]
      simp only [Nat.cast_ofNat, hunit]
      exact congrArg _ hclose

/-- The notation of a number depends on its view alone. -/
theorem toText_eq (x : Float) : toText x =
    match view x with
    | .notANumber => "NaN"
    | .infinity s => withSign s "inf"
    | .zero s => withSign s "0"
    | .finite s m e _ => withSign s (ofMantissa m e).decimal.toText := by
  have hnan : x.isNaN = (view x).isNaN := rfl
  have hinf : x.isInf = (view x).isInf := rfl
  have hzero : (x == 0) = (view x).beq (.zero .positive) := rfl
  -- the tests for the undefined value come first, and the sign is written before anything else
  have htext (hx : (view x).isNaN = false) : toText x = withSign (sign (view x))
      (if x.isInf then "inf" else if x == 0 then "0" else (binaryNumber x).decimal.toText) := by
    have hx : x.isNaN = false := hnan.trans hx
    rw [toText, hx, if_neg Bool.false_ne_true, sign_view hx]
    cases signBit x <;> rfl
  cases hview : view x with
  | notANumber =>
      rw [hview] at hnan
      rw [toText, hnan]
      rfl
  | infinity s =>
      rw [htext (by rw [hview]; rfl), hinf, hview]
      rfl
  | zero s =>
      rw [htext (by rw [hview]; rfl), hinf, hzero, hview]
      rfl
  | finite s m e hm =>
      rw [htext (by rw [hview]; rfl), hinf, hzero, binaryNumber_of_view hview, hview]
      cases s <;> rfl

/-- A negative number is written as a minus before its negation. -/
theorem toText_neg {x : Float} (h : Scalar.isNeg x) : toText x = "-" ++ toText (-x) := by
  have hneg := (isNeg_iff x).mp h
  rw [toText_eq, toText_eq, view_neg]
  cases hview : view x with
  | notANumber | zero s =>
      rw [hview] at hneg
      cases hneg
  | infinity s | finite s m e hm =>
      rw [hview] at hneg
      cases s with
      | negative => rfl
      | positive => cases hneg

/-! ## The laws -/

theorem isNeg_of_sign {x : Float} (h : sign (view x) = .positive) : Scalar.isNeg x = false := by
  refine Bool.eq_false_iff.mpr fun hneg => ?_
  have hneg := (isNeg_iff x).mp hneg
  cases hview : view x with
  | notANumber | zero s =>
      rw [hview] at hneg
      cases hneg
  | infinity s | finite s m e hm =>
      rw [hview] at h hneg
      obtain rfl : s = .positive := h
      cases hneg

instance : Literal.Laws Float where
  ofDecimal_zero := by decide +kernel
  ofDecimal_one := by decide +kernel
  isNeg_ofDecimal digits places := isNeg_of_sign (sign_view_ofScientific digits places)
  not_isNegativeZero_ofDecimal digits places h := by
    have hrecip : sign (view (1 / Float.ofScientific digits true places)) = .positive :=
      sign_view_pack (sign_div rfl (sign_view_ofScientific digits places))
    exact Bool.false_ne_true ((isNeg_of_sign hrecip).symm.trans h.2)
  toText_of_isNeg := toText_neg

end Binary64

end SymbolicCalculus
