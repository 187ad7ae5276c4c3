import SymbolicCalculus.Proofs.Scalar.Numerals

/-!
# Numerals stand for plain numbers

Numbers are undefined only if they are made of infinities or of zeros. A numeral is read by a
division by a power of ten or by a rounding, neither of which makes such a number, so what is read
is plain.
-/

namespace SymbolicCalculus

namespace Binary64

open Float.Model Float.Model.UnpackedFloat

/-! ## Packing -/

theorem isNaN_unpack_packComponents (s : Sign) {e : BitVec 11} (he : e ≠ -1#11) (m : BitVec 52) :
    (UnpackedFloat.unpack Format.binary64 (packComponents Format.binary64 s e m)).isNaN = false := by
  simp only [UnpackedFloat.unpack, unpackMantissa_packComponents, unpackExponent_packComponents,
    he, if_false]
  repeat' split
  all_goals rfl

/-- Packing makes no number undefined. -/
theorem isNaN_view_pack {u : UnpackedFloat} (h : u.isNaN = false) :
    (view (.ofModel (Float.Model.pack u))).isNaN = false := by
  show (UnpackedFloat.unpack Format.binary64 (UnpackedFloat.pack Format.binary64 u)).isNaN = false
  cases u with
  | notANumber => cases h
  | infinity s | zero s => cases s <;> rfl
  | finite s m e hm =>
      -- a number that is too large is packed as infinite
      simp only [UnpackedFloat.pack]
      split
      · cases s <;> rfl
      · next hle =>
        split
        · refine isNaN_unpack_packComponents s (fun hones => hle ?_) _
          have hnat : _ % 2 ^ 11 = 2047 := congrArg BitVec.toNat hones
          exact Nat.succ_le_succ (hnat ▸ Nat.mod_le _ _)
        · exact isNaN_unpack_packComponents s (by decide) _

/-! ## Reading -/

variable {u v : UnpackedFloat} {spec : Format}

theorem isNaN_roundWithAccuracy (spec : Format) (s : Sign) (m : Nat) (e : Int) (a : Accuracy) :
    (roundWithAccuracy spec s m e a).isNaN = false := by
  simp only [roundWithAccuracy]
  split <;> rfl

theorem isNaN_ofNat (n : Nat) : (UnpackedFloat.ofNat spec n).isNaN = false := by
  unfold UnpackedFloat.ofNat UnpackedFloat.ofInt UnpackedFloat.normalize
  split
  · exact isNaN_roundWithAccuracy _ _ _ _ _
  · rfl
  · exact isNaN_roundWithAccuracy _ _ _ _ _

/-- The number is neither zero nor infinite nor undefined. -/
def isOrdinary : UnpackedFloat → Bool
  | .finite _ _ _ _ => true
  | _ => false

/-- A quotient by an ordinary number is defined where the dividend is. -/
theorem isNaN_div (hu : u.isNaN = false) (hv : isOrdinary v = true) :
    (UnpackedFloat.div spec u v).isNaN = false := by
  cases v with
  | notANumber | infinity | zero => cases hv
  | finite =>
      cases u with
      | notANumber => cases hu
      | infinity | zero => rfl
      | finite => exact isNaN_roundWithAccuracy _ _ _ _ _

theorem isNaN_ofScientific (m : Nat) (e : Int) :
    (UnpackedFloat.ofScientific spec m e).isNaN = false := by
  unfold UnpackedFloat.ofScientific
  -- zero, too large, too small, and the two ways of scaling
  repeat' split
  · rfl
  · rfl
  · rfl
  · exact isNaN_roundWithAccuracy _ _ _ _ _
  · exact isNaN_roundWithAccuracy _ _ _ _ _

theorem isOrdinary_powersOfTen : ∀ e : Fin 23,
    isOrdinary (view Float.exactlyRepresentablePowersOfTen[e.val]) = true := by
  decide +kernel

/-- No numeral is read as the undefined value. -/
theorem isNaN_ofDecimal (digits places : Nat) :
    Scalar.isNaN (Literal.ofDecimal digits places : Float) = false := by
  show (view (Float.ofScientific digits true places)).isNaN = false
  unfold Float.ofScientific
  split
  · next h =>
    -- a short numeral is read as the quotient of two doubles
    have hten := isOrdinary_powersOfTen ⟨places, by omega⟩
    have hdigits : (view digits.toUInt64.toFloat).isNaN = false := isNaN_view_pack (isNaN_ofNat _)
    exact isNaN_view_pack (isNaN_div hdigits hten)
  · exact isNaN_view_pack (isNaN_ofScientific _ _)

/-- A numeral is read as a plain number. -/
theorem isPlain_ofDecimal (digits places : Nat) :
    Scalar.IsPlain (Literal.ofDecimal digits places : Float) where
  isNeg_eq := Literal.Laws.isNeg_ofDecimal digits places
  not_isNegativeZero := Literal.Laws.not_isNegativeZero_ofDecimal digits places
  isNaN_eq := isNaN_ofDecimal digits places

end Binary64

end SymbolicCalculus
