import SymbolicCalculus.Scalar.Pattern
import SymbolicCalculus.Proofs.Scalar.Numerals

/-!
# Codes of numbers

Trees are hashed by codes of their numbers, so two numbers have to share a code exactly if they
count as the same (`Scalar.code_eq_code_iff`). Of the numbers it is only asked that the tests they
are put to are those of their bits. Then all patterns that stand for no number are alike, the zeros
are alike, and other patterns are alike if their bits are (`Pattern.same_iff`).

Patterns meet this law by definition. For `Float` it says that the class of a pattern is seen in
what is unpacked from it, and that the bits are found again by packing that (`pack_unpack`). Hence a
pattern passes the same tests as the double that it stands for, and has its code
(`Pattern.code_toFloat`).
-/

namespace SymbolicCalculus

namespace Encoding

/-- The pattern that a number is stored as. -/
def pattern {K : Type} [Encoding K] (v : K) : Pattern := ⟨toBits v⟩

/-- Numbers are tested by the bits that they are stored in. -/
class Lawful (K : Type) [Scalar K] [Encoding K] : Prop where
  toBits_zero : toBits (0 : K) = 0
  isNaN_eq : ∀ v : K, Scalar.isNaN v = (pattern v).isNaN
  beq_eq : ∀ v w : K, (v == w) = (pattern v).equal (pattern w)

instance : Lawful Pattern where
  toBits_zero := rfl
  isNaN_eq _ := rfl
  beq_eq _ _ := rfl

end Encoding

/-! ## Codes of patterns -/

namespace Pattern

/-- The classes do not overlap: a zero has no bit of its exponent set. -/
theorem isNaN_of_isZero {p : Pattern} (h : p.isZero = true) : p.isNaN = false := by
  simp only [isZero, Bool.and_eq_true, beq_iff_eq] at h
  simp [isNaN, h.1]

theorem isZero_of_isNaN {p : Pattern} (h : p.isNaN = true) : p.isZero = false := by
  refine Bool.eq_false_iff.mpr fun hzero => ?_
  rw [isNaN_of_isZero hzero] at h
  cases h

/-- Two patterns are the same if neither stands for a number, if both are zeros, or if they do not
differ at all. -/
theorem same_iff {p q : Pattern} :
    Scalar.same p q = true ↔
      (p.isNaN = true ∧ q.isNaN = true) ∨ (p.isZero = true ∧ q.isZero = true) ∨ p = q := by
  have hsame : Scalar.same p q = (p.equal q || (p.isNaN && q.isNaN)) := rfl
  have hbits : p.bits = q.bits ↔ p = q := by
    obtain ⟨bits⟩ := p
    obtain ⟨bits'⟩ := q
    exact Iff.of_eq (Pattern.mk.injEq bits bits').symm
  rw [hsame, equal]
  cases hp : p.isNaN with
  | true =>
      have heq : p = q → q.isNaN = true := fun h => h ▸ hp
      simpa [isZero_of_isNaN hp] using heq
  | false =>
      cases hq : q.isNaN with
      | true =>
          have hne : p ≠ q := fun h => by
            rw [h, hq] at hp
            cases hp
          simp [isZero_of_isNaN hq, hne]
      | false => simp [hbits, or_comm]

theorem same_symm {p q : Pattern} (h : Scalar.same p q = true) : Scalar.same q p = true := by
  rw [same_iff] at h ⊢
  exact h.imp And.symm (Or.imp And.symm Eq.symm)

/-- The patterns fall into classes, all zeros in one and all that stand for no number in another. -/
theorem same_trans {p q r : Pattern} (hpq : Scalar.same p q = true)
    (hqr : Scalar.same q r = true) : Scalar.same p r = true := by
  rw [same_iff] at hpq hqr ⊢
  -- the pattern in the middle is not of two classes at once
  have hclash (hnan : q.isNaN = true) (hzero : q.isZero = true) : False :=
    Bool.false_ne_true ((isNaN_of_isZero hzero).symm.trans hnan)
  rcases hpq with ⟨hp, hq⟩ | ⟨hp, hq⟩ | rfl
  · rcases hqr with ⟨-, hr⟩ | ⟨hq', -⟩ | rfl
    · exact Or.inl ⟨hp, hr⟩
    · exact (hclash hq hq').elim
    · exact Or.inl ⟨hp, hq⟩
  · rcases hqr with ⟨hq', -⟩ | ⟨-, hr⟩ | rfl
    · exact (hclash hq' hq).elim
    · exact Or.inr (Or.inl ⟨hp, hr⟩)
    · exact Or.inr (Or.inl ⟨hp, hq⟩)
  · exact hqr

/-- Of the patterns, only the zeros equal zero. -/
theorem beq_zero (p : Pattern) : (p == 0) = p.isZero := by
  have hbeq : (p == 0) = (!p.isNaN && !false && (p.bits == 0 || (p.isZero && true))) := rfl
  rw [hbeq]
  cases hzero : p.isZero with
  | true => simp [isNaN_of_isZero hzero]
  | false =>
      have hbits : (p.bits == 0) = false := beq_eq_false_iff_ne.mpr fun h => by
        obtain ⟨bits⟩ := p
        obtain rfl : bits = 0 := h
        cases hzero
      simp [hbits]

/-- The code of a pattern is one of the patterns that are the same. -/
theorem same_code (p : Pattern) : Scalar.same p ⟨Scalar.code p⟩ = true := by
  have hcode : Scalar.code p =
      if p.isNaN then 0x7FF8000000000000 else if p.isZero then 0 else p.bits := by
    rw [← beq_zero]
    rfl
  rw [same_iff, hcode]
  split
  · next hnan => exact Or.inl ⟨hnan, by decide⟩
  · split
    · next hzero => exact Or.inr (Or.inl ⟨hzero, by decide⟩)
    · exact Or.inr (Or.inr rfl)

/-- Each class has one code. -/
theorem code_eq_of_same {p q : Pattern} (h : Scalar.same p q = true) :
    Scalar.code p = Scalar.code q := by
  have hnan (r : Pattern) (hr : r.isNaN = true) : Scalar.code r = 0x7FF8000000000000 :=
    if_pos hr
  have hzero (r : Pattern) (hr : r.isZero = true) : Scalar.code r = 0 := by
    have hne : Scalar.isNaN r ≠ true := Bool.eq_false_iff.mp (isNaN_of_isZero hr)
    rw [Scalar.code, if_neg hne, beq_zero, if_pos hr]
  rcases same_iff.mp h with ⟨hp, hq⟩ | ⟨hp, hq⟩ | rfl
  · rw [hnan p hp, hnan q hq]
  · rw [hzero p hp, hzero q hq]
  · rfl

end Pattern

/-! ## Codes of numbers -/

namespace Scalar

variable {K : Type} [Scalar K] [Encoding K] [Encoding.Lawful K]

open Encoding

/-- Whether two numbers count as the same can be told from their patterns. -/
theorem same_eq_same_pattern (v w : K) : same v w = same (pattern v) (pattern w) := by
  rw [same, Lawful.beq_eq, Lawful.isNaN_eq, Lawful.isNaN_eq]
  rfl

theorem code_eq_code_pattern (v : K) : code v = code (pattern v) := by
  rw [code, Lawful.isNaN_eq, Lawful.beq_eq, pattern, pattern, Lawful.toBits_zero]
  rfl

/-- **Numbers share a code exactly if they count as the same.** -/
theorem code_eq_code_iff {v w : K} : code v = code w ↔ same v w = true := by
  rw [code_eq_code_pattern v, code_eq_code_pattern w, same_eq_same_pattern]
  constructor
  · intro h
    -- both patterns are the same as that of their common code
    have hv := Pattern.same_code (pattern v)
    rw [h] at hv
    exact Pattern.same_trans hv (Pattern.same_symm (Pattern.same_code (pattern w)))
  · exact Pattern.code_eq_of_same

end Scalar

namespace Binary64

open Float.Model Float.Model.UnpackedFloat

/-! ## Bits and views -/

theorem toBitVec_ofBitVec (b : BitVec 1) : (Sign.ofBitVec b).toBitVec = b := by
  revert b
  decide

/-- The fields of a pattern of bits make up the pattern. -/
theorem packComponents_unpack (b : BitVec Format.binary64.numBits) :
    packComponents Format.binary64 (Sign.ofBitVec (unpackSign b)) (unpackExponent b)
      (unpackMantissa b) = b := by
  rw [packComponents, toBitVec_ofBitVec]
  apply BitVec.eq_of_getLsbD_eq
  intro i hi
  have hi : i < 64 := hi
  simp only [unpackSign, unpackExponent, unpackMantissa, BitVec.getLsbD_append,
    BitVec.getLsbD_cast, BitVec.getLsbD_extractLsb]
  -- a bit belongs to the mantissa, to the exponent or to the sign
  split
  · rw [decide_eq_true (by omega), Bool.true_and, Nat.zero_add]
  · split
    · rw [decide_eq_true (by omega), Bool.true_and]
      congr 1
      omega
    · rw [decide_eq_true (by omega), Bool.true_and]
      congr 1
      omega

/-- A valid pattern of bits is found again by packing what is unpacked from it. -/
theorem pack_unpack {b : BitVec Format.binary64.numBits} (h : Format.binary64.Valid b) :
    UnpackedFloat.pack Format.binary64 (UnpackedFloat.unpack Format.binary64 b) = b := by
  have hfields := packComponents_unpack b
  have hcanonical := canonical_unpack b
  have hbias : Format.binary64.exponentBias = 1023 := rfl
  have hman : (@unpackMantissa Format.binary64 b).toNat < 2 ^ 52 := BitVec.isLt _
  revert hcanonical
  -- the cases are those of the exponent field: infinite and undefined, zero and subnormal, normal
  unfold UnpackedFloat.unpack
  dsimp only
  split
  · next hones =>
    intro _
    split
    · next hzero =>
      rw [hones, hzero] at hfields
      exact hfields
    · next hzero => exact (h.eq_packedNaN hones hzero).symm
  · split
    · next hnone =>
      split
      · next hzero =>
        intro _
        rw [hnone, hzero] at hfields
        exact hfields
      · intro hcanonical
        have hmantissa : BitVec.ofNat 52 (@unpackMantissa Format.binary64 b).toNat =
            unpackMantissa b := by
          rw [BitVec.ofNat_toNat, BitVec.setWidth_eq]
        rw [pack_finite hcanonical, if_neg (by omega), hmantissa]
        rw [hnone] at hfields
        exact hfields
    · intro hcanonical
      have hmantissa : BitVec.ofNat 52 (2 ^ 52 + (@unpackMantissa Format.binary64 b).toNat) =
          unpackMantissa b := by
        apply BitVec.eq_of_toNat_eq
        rw [BitVec.toNat_ofNat]
        omega
      have hexponent : BitVec.ofNat 11
          (((@unpackExponent Format.binary64 b).toNat : Int) - ((1023 : Nat) + (52 : Nat)) +
            1075).toNat =
            unpackExponent b := by
        apply BitVec.eq_of_toNat_eq
        rw [BitVec.toNat_ofNat]
        omega
      rw [pack_finite hcanonical, toNat_append_one, if_pos (by omega), hmantissa, hbias, hexponent]
      exact hfields

/-- A double is known by its view. -/
theorem eq_of_view_eq {x y : Float} (h : view x = view y) : x = y := by
  have hpack : ∀ z : Float, UnpackedFloat.pack Format.binary64 (view z) = z.toBits.toBitVec :=
    fun z => pack_unpack z.toModel.valid
  have hbits : x.toBits.toBitVec = y.toBits.toBitVec := by rw [← hpack x, ← hpack y, h]
  obtain ⟨⟨xbits, hx⟩⟩ := x
  obtain ⟨⟨ybits, hy⟩⟩ := y
  obtain rfl : xbits = ybits := UInt64.toBitVec_inj.mp hbits
  rfl

/-! ## Patterns and views -/

/-- What a pattern stands for, with sign, mantissa and exponent apart. -/
def patternView (p : Pattern) : UnpackedFloat :=
  UnpackedFloat.unpack Format.binary64 p.bits.toBitVec

variable {p q : Pattern}

theorem unpackExponent_eq_iff {n : Nat} (hn : n < 2 ^ 11) :
    (@unpackExponent Format.binary64 p.bits.toBitVec) = BitVec.ofNat 11 n ↔ p.exponent = n := by
  rw [← BitVec.toNat_inj, toNat_unpackExponent, BitVec.toNat_ofNat, Nat.mod_eq_of_lt hn]
  rfl

theorem unpackMantissa_eq_zero_iff :
    (@unpackMantissa Format.binary64 p.bits.toBitVec) = 0#52 ↔ p.fraction = 0 := by
  rw [← BitVec.toNat_inj, toNat_unpackMantissa]
  rfl

/-- The class of a pattern is seen in its view. -/
theorem patternView_spec (p : Pattern) :
    (patternView p).isNaN = p.isNaN ∧ ((∃ s, patternView p = .zero s) ↔ p.isZero = true) := by
  have hones : (@unpackExponent Format.binary64 p.bits.toBitVec) = -1#11 ↔ p.exponent = 2047 :=
    unpackExponent_eq_iff (n := 2047) (by decide)
  have hnone : (@unpackExponent Format.binary64 p.bits.toBitVec) = 0#11 ↔ p.exponent = 0 :=
    unpackExponent_eq_iff (n := 0) (by decide)
  have hfraction := unpackMantissa_eq_zero_iff (p := p)
  unfold patternView Pattern.isNaN Pattern.isZero UnpackedFloat.unpack
  dsimp only
  simp only [hones, hnone, hfraction]
  -- the cases are those of the exponent field, and in each the fraction is zero or not
  split
  · next h => split <;> next hzero => simp [h, hzero, UnpackedFloat.isNaN]
  · next h =>
    split
    · next h' => split <;> next hzero => simp [h', hzero, UnpackedFloat.isNaN]
    · next h' => simp [h, h', UnpackedFloat.isNaN]

/-- A pattern that stands for a number is known by its view. -/
theorem eq_of_patternView_eq (hp : p.isNaN = false) (hq : q.isNaN = false)
    (h : patternView p = patternView q) : p = q := by
  have hpack (r : Pattern) (hr : r.isNaN = false) :
      UnpackedFloat.pack Format.binary64 (patternView r) = r.bits.toBitVec := by
    -- packing finds the bits again, unless they are those of an undefined value
    refine pack_unpack ⟨fun hones hfraction => ?_⟩
    have hexponent : r.exponent = 2047 := (unpackExponent_eq_iff (n := 2047) (by decide)).mp hones
    have hne : r.fraction ≠ 0 := mt unpackMantissa_eq_zero_iff.mpr hfraction
    simp [Pattern.isNaN, hexponent, hne] at hr
  obtain ⟨bits⟩ := p
  obtain ⟨bits'⟩ := q
  have hbits : bits.toBitVec = bits'.toBitVec := by rw [← hpack _ hp, ← hpack _ hq, h]
  rw [UInt64.toBitVec_inj.mp hbits]

/-- Numerical equality is that of views, but nothing that is undefined is equal to anything. -/
theorem beq_iff (u v : UnpackedFloat) :
    u.beq v = true ↔ u.isNaN = false ∧ v.isNaN = false ∧ SameView u v := by
  rw [← sameView_iff]
  cases hu : u.isNaN with
  | true =>
      have hbeq : u.beq v = false := by
        cases u with
        | notANumber => rfl
        | _ => cases hu
      simp [hbeq]
  | false =>
      cases hv : v.isNaN with
      | true =>
          have hbeq : u.beq v = false := by
            cases v with
            | notANumber => cases u <;> rfl
            | _ => cases hv
          simp [hbeq]
      | false => simp

/-- Numerical equality of patterns is that of what they stand for. -/
theorem beq_patternView (p q : Pattern) : (patternView p).beq (patternView q) = p.equal q := by
  obtain ⟨hpnan, hpzero⟩ := patternView_spec p
  obtain ⟨hqnan, hqzero⟩ := patternView_spec q
  rw [Bool.eq_iff_iff, beq_iff, hpnan, hqnan]
  simp only [Pattern.equal, Bool.and_eq_true, Bool.not_eq_true', Bool.or_eq_true, beq_iff_eq,
    and_assoc, ← hpzero, ← hqzero]
  refine and_congr_right fun hp => and_congr_right fun hq => ?_
  constructor
  · rintro (hview | ⟨s, t, hs, ht⟩)
    · exact Or.inl (congrArg Pattern.bits (eq_of_patternView_eq hp hq hview))
    · exact Or.inr ⟨⟨s, hs⟩, t, ht⟩
  · rintro (hbits | ⟨⟨s, hs⟩, t, ht⟩)
    · rw [patternView, hbits]
      exact .refl _
    · exact Or.inr ⟨s, t, hs, ht⟩

instance : Encoding.Lawful Float where
  toBits_zero := rfl
  isNaN_eq x := (patternView_spec ⟨x.toBits⟩).1
  beq_eq x y := beq_patternView ⟨x.toBits⟩ ⟨y.toBits⟩

end Binary64

/-! ## Patterns and doubles -/

namespace Pattern

open Binary64 Float.Model Float.Model.UnpackedFloat

variable (p q : Pattern)

theorem view_toFloat : view p.toFloat = patternView p := unpack_pack (canonical_unpack _)

theorem isNaN_toFloat : Scalar.isNaN p.toFloat = p.isNaN := by
  show (view p.toFloat).isNaN = p.isNaN
  rw [view_toFloat, (patternView_spec p).1]

theorem beq_toFloat : (p.toFloat == q.toFloat) = (p == q) := by
  show (view p.toFloat).beq (view q.toFloat) = p.equal q
  rw [view_toFloat, view_toFloat, beq_patternView]

/-- Patterns are the same exactly if the doubles are that they stand for. -/
theorem same_toFloat : Scalar.same p.toFloat q.toFloat = Scalar.same p q := by
  rw [Scalar.same, beq_toFloat, isNaN_toFloat, isNaN_toFloat]
  rfl

/-- A double is stored as a pattern that stands for it. -/
theorem toFloat_ofFloat (x : Float) : (ofFloat x).toFloat = x :=
  eq_of_view_eq (view_toFloat (ofFloat x))

/-- The first bit is the sign and nothing else. -/
theorem patternView_negated : patternView p.negated = (patternView p).neg := by
  have hsign : (@unpackSign Format.binary64 p.negated.bits.toBitVec) =
      (@unpackSign Format.binary64 p.bits.toBitVec) ^^^ 1#1 := BitVec.extractLsb_xor
  have hexponent : (@unpackExponent Format.binary64 p.negated.bits.toBitVec) =
      (@unpackExponent Format.binary64 p.bits.toBitVec) :=
    BitVec.extractLsb_xor.trans BitVec.xor_zero
  have hmantissa : (@unpackMantissa Format.binary64 p.negated.bits.toBitVec) =
      (@unpackMantissa Format.binary64 p.bits.toBitVec) :=
    BitVec.extractLsb_xor.trans BitVec.xor_zero
  have hneg (s : BitVec 1) : Sign.ofBitVec (s ^^^ 1#1) = -Sign.ofBitVec s := by
    rcases BitVec.eq_zero_or_eq_one s with rfl | rfl <;> rfl
  unfold patternView UnpackedFloat.unpack
  simp only [hsign, hexponent, hmantissa, hneg]
  repeat' split
  all_goals rfl

/-- Taking the first bit off takes the sign off. -/
theorem patternView_absolute : patternView p.absolute = (patternView p).abs := by
  have hsign : (@unpackSign Format.binary64 p.absolute.bits.toBitVec) = 0#1 :=
    BitVec.extractLsb_and.trans BitVec.and_zero
  have hexponent : (@unpackExponent Format.binary64 p.absolute.bits.toBitVec) =
      (@unpackExponent Format.binary64 p.bits.toBitVec) :=
    BitVec.extractLsb_and.trans BitVec.and_allOnes
  have hmantissa : (@unpackMantissa Format.binary64 p.absolute.bits.toBitVec) =
      (@unpackMantissa Format.binary64 p.bits.toBitVec) :=
    BitVec.extractLsb_and.trans BitVec.and_allOnes
  unfold patternView UnpackedFloat.unpack
  simp only [hsign, hexponent, hmantissa]
  repeat' split
  all_goals rfl

theorem toFloat_neg : (-p).toFloat = -p.toFloat := by
  apply eq_of_view_eq
  rw [view_neg, view_toFloat, view_toFloat]
  exact patternView_negated p

/-- A function has the same value at a pattern as at the double that the pattern stands for. -/
theorem toFloat_apply (f : Fn) : (Scalar.apply f p).toFloat = Scalar.apply f p.toFloat := by
  cases f with
  | abs =>
      apply eq_of_view_eq
      have habs : view p.toFloat.abs = (view p.toFloat).abs :=
        view_ofModel_pack (canonical_view p.toFloat).abs
      show view p.absolute.toFloat = view p.toFloat.abs
      rw [habs, view_toFloat, view_toFloat, patternView_absolute]
  -- any other function is computed on doubles and stored as a pattern
  | _ => exact toFloat_ofFloat _

/-- A pattern has the code of the double that it stands for. -/
theorem code_toFloat : Scalar.code p.toFloat = Scalar.code p := by
  rw [Scalar.code_eq_code_pattern]
  -- the pattern that the double is stored as may be another one, but stands for the same double
  refine code_eq_of_same ?_
  rw [← same_toFloat]
  show Scalar.same (ofFloat p.toFloat).toFloat p.toFloat = true
  rw [toFloat_ofFloat]
  exact Binary64.same_iff.mpr (.refl _)

end Pattern

end SymbolicCalculus
