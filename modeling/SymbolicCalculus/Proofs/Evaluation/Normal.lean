import Mathlib.Algebra.BigOperators.Group.List.Basic
import Mathlib.Algebra.Ring.Defs
import SymbolicCalculus.Proofs.Evaluation.Failure
import SymbolicCalculus.Proofs.Expr.Depth
import SymbolicCalculus.Proofs.Expr.Mapping
import SymbolicCalculus.Proofs.Expr.NormalForm

/-!
# Evaluation of normal forms

Normalizing puts the entries of a list among those of the list around it. Over a ring this is
associativity, and the signs of what is subtracted come from the rules for negation. Nothing is
asked of division, powers, constants and functions, so they may be any operations
(`Uninterpreted`).

An expression and its normal form have the same value over every ring, or they fail with the same
error (`evaluate_normalize`). Where arithmetic rounds, their values may differ, but the errors are
still the same, since they depend on the order of the variables alone
(`failure?_evaluate_normalize`).
-/

namespace SymbolicCalculus

namespace Expr

variable {K : Type}

/-! ## Errors -/

/-- The name of a variable. -/
def Landmark.name? : Landmark K → Option String
  | .var name => some name
  | _ => none

mutual

/-- The variables among the landmarks of an expression are its variables, in order. -/
theorem filterMap_landmarks (e : Expr K) :
    e.landmarks.filterMap Landmark.name? = e.varOccurrences := by
  match e with
  | number _ | constant _ | var _ => rfl
  | sum as => rw [landmarks, varOccurrences_sum, filterMap_addendLandmarks as]
  | product es => rw [landmarks, varOccurrences_product, filterMap_factorLandmarks es]
  | quotient a b =>
    rw [landmarks, varOccurrences_quotient, List.filterMap_append, filterMap_landmarks a,
      filterMap_landmarks b]
  | power a b =>
    rw [landmarks, varOccurrences_power, List.filterMap_append, filterMap_landmarks a,
      filterMap_landmarks b]
  | call f a =>
    rw [landmarks, varOccurrences_call, List.filterMap_append, ← filterMap_landmarks a]
    exact List.append_nil _

/-- The same for the terms of a sum. -/
theorem filterMap_addendLandmarks (as : List (Addend (Expr K))) :
    (addendLandmarks as).filterMap Landmark.name? = addendOccurrences as := by
  match as with
  | [] => rfl
  | ⟨e, s⟩ :: as =>
    rw [addendLandmarks, addendOccurrences_cons, List.filterMap_append, filterMap_landmarks e,
      filterMap_addendLandmarks as]

/-- The same for the factors of a product. -/
theorem filterMap_factorLandmarks (es : List (Expr K)) :
    (factorLandmarks es).filterMap Landmark.name? = factorOccurrences es := by
  match es with
  | [] => rfl
  | e :: es =>
    rw [factorLandmarks, factorOccurrences_cons, List.filterMap_append, filterMap_landmarks e,
      filterMap_factorLandmarks es]

end

/-- The variables of a normal form are those of the expression, in the same order. -/
theorem varOccurrences_normalize (e : Expr K) : e.normalize.varOccurrences = e.varOccurrences := by
  rw [← filterMap_landmarks, landmarks_normalize, filterMap_landmarks]

/-- Whatever the arithmetic, an expression and its normal form fail alike. -/
theorem failure?_evaluate_normalize [Scalar K] (context : Context K) (e : Expr K) :
    failure? (evaluate context e.normalize) = failure? (evaluate context e) := by
  rw [failure?_evaluate, failure?_evaluate, Context.visits, Context.visits,
    varOccurrences_normalize]

end Expr

/-! ## Rings as scalars -/

/-- The operations of scalars that a ring does not have. Nothing is assumed of them. -/
class Scalar.Uninterpreted (R : Type) extends Div R, BEq R where
  pow : R → R → R
  isNeg : R → Bool
  isNaN : R → Bool
  isFinite : R → Bool
  nan : R
  constant : Constant → R
  apply : Fn → R → R

/-- The elements of a ring as scalars, added and multiplied exactly. -/
@[reducible] def Scalar.ofRing (R : Type) [Ring R] [ops : Scalar.Uninterpreted R] : Scalar R where
  pow := ops.pow
  isNeg := ops.isNeg
  isNaN := ops.isNaN
  isFinite := ops.isFinite
  nan := ops.nan
  constant := ops.constant
  apply := ops.apply

namespace Expr

section OverRing

variable {R : Type} [Ring R] [Scalar.Uninterpreted R]

local instance : Scalar R := Scalar.ofRing R

/-! ## Sums and products of values -/

/-- What an entry of the given sign contributes to a sum. -/
def signed (s : Bool) (v : R) : R := if s then -v else v

theorem signed_zero (s : Bool) : signed s (0 : R) = 0 := by
  cases s with
  | false => rfl
  | true => exact neg_zero

theorem signed_add (s : Bool) (v w : R) : signed s (v + w) = signed s v + signed s w := by
  cases s with
  | false => rfl
  | true => exact neg_add v w

theorem signed_xor (s t : Bool) (v : R) : signed (t ^^ s) v = signed s (signed t v) := by
  cases s <;> cases t <;> first | rfl | exact (neg_neg v).symm

/-- Adding up from left to right gives the sum of the entries with their signs. -/
theorem total_eq (as : List (Addend R)) :
    Addend.total as = (as.map fun a => signed a.subtract a.expr).sum := by
  -- subtracting an entry is adding it under its sign
  have hstep : (fun (sum : R) (a : Addend R) => if a.subtract then sum - a.expr else sum + a.expr) =
      fun sum a => sum + signed a.subtract a.expr := by
    funext sum a
    obtain ⟨v, s⟩ := a
    cases s with
    | false => rfl
    | true => exact sub_eq_add_neg sum v
  rw [List.sum_eq_foldl, List.foldl_map, ← hstep]
  rfl

theorem product_eq (vs : List R) : Scalar.product vs = vs.prod :=
  List.prod_eq_foldl.symm

theorem total_cons (v : R) (s : Bool) (as : List (Addend R)) :
    Addend.total (⟨v, s⟩ :: as) = signed s v + Addend.total as := by
  rw [total_eq, total_eq, List.map_cons, List.sum_cons]

theorem product_cons (v : R) (vs : List R) :
    Scalar.product (v :: vs) = v * Scalar.product vs := by
  rw [product_eq, product_eq, List.prod_cons]

/-! ## Sums and products of expressions -/

variable (lookup : String → Except EvalError R)

/-- The value of a sum of the given entries. -/
def sumValue (as : List (Addend (Expr R))) : Except EvalError R :=
  (addendValues lookup as).map Addend.total

/-- The value of a product of the given factors. -/
def productValue (es : List (Expr R)) : Except EvalError R :=
  (factorValues lookup es).map Scalar.product

variable {lookup}

theorem sumValue_nil : sumValue lookup ([] : List (Addend (Expr R))) = .ok 0 := rfl

theorem productValue_nil : productValue lookup ([] : List (Expr R)) = .ok 1 := rfl

/-- The first entry of a sum may be added last. -/
theorem sumValue_cons (e : Expr R) (s : Bool) (as : List (Addend (Expr R))) :
    sumValue lookup (⟨e, s⟩ :: as) =
      ((e.valueWith lookup).map (signed s) >>= fun v => (sumValue lookup as).map (v + ·)) := by
  rw [sumValue, addendValues, map_bind, bind_of_map]
  congr 1
  funext v
  rw [sumValue, map_map]
  cases addendValues lookup as with
  | error err => rfl
  | ok vs => exact congrArg Except.ok (total_cons v s vs)

/-- The first factor of a product may be multiplied last. -/
theorem productValue_cons (e : Expr R) (es : List (Expr R)) :
    productValue lookup (e :: es) =
      (e.valueWith lookup >>= fun v => (productValue lookup es).map (v * ·)) := by
  rw [productValue, factorValues, map_bind]
  congr 1
  funext v
  rw [productValue, map_map]
  cases factorValues lookup es with
  | error err => rfl
  | ok vs => exact congrArg Except.ok (product_cons v vs)

/-- The value of a sum taken apart anywhere: associativity of addition. -/
theorem sumValue_append (as bs : List (Addend (Expr R))) :
    sumValue lookup (as ++ bs) =
      (sumValue lookup as >>= fun v => (sumValue lookup bs).map (v + ·)) := by
  -- the entries before the cut are evaluated first in either grouping, so errors agree as well
  induction as with
  | nil =>
      rw [List.nil_append, sumValue_nil]
      cases sumValue lookup bs with
      | error err => rfl
      | ok w => exact congrArg Except.ok (zero_add w).symm
  | cons a as ih =>
      rw [List.cons_append, sumValue_cons, sumValue_cons, ih]
      cases (a.expr.valueWith lookup).map (signed a.subtract) with
      | error err => rfl
      | ok u =>
      cases sumValue lookup as with
      | error err => rfl
      | ok v =>
      cases sumValue lookup bs with
      | error err => rfl
      | ok w => exact congrArg Except.ok (add_assoc u v w).symm

/-- The value of a product taken apart anywhere: associativity of multiplication. -/
theorem productValue_append (es fs : List (Expr R)) :
    productValue lookup (es ++ fs) =
      (productValue lookup es >>= fun v => (productValue lookup fs).map (v * ·)) := by
  induction es with
  | nil =>
      rw [List.nil_append, productValue_nil]
      cases productValue lookup fs with
      | error err => rfl
      | ok w => exact congrArg Except.ok (one_mul w).symm
  | cons e es ih =>
      rw [List.cons_append, productValue_cons, productValue_cons, ih]
      cases e.valueWith lookup with
      | error err => rfl
      | ok u =>
      cases productValue lookup es with
      | error err => rfl
      | ok v =>
      cases productValue lookup fs with
      | error err => rfl
      | ok w => exact congrArg Except.ok (mul_assoc u v w).symm

/-- Flipping the signs of all entries negates a sum: the value of a sum that is subtracted. -/
theorem sumValue_negateIf (s : Bool) (as : List (Addend (Expr R))) :
    sumValue lookup (as.map (Addend.negateIf s)) = (sumValue lookup as).map (signed s) := by
  induction as with
  | nil => exact congrArg Except.ok (signed_zero s).symm
  | cons a as ih =>
      obtain ⟨e, t⟩ := a
      rw [List.map_cons, negateIf_eq, sumValue_cons, sumValue_cons, ih]
      cases e.valueWith lookup with
      | error err => rfl
      | ok v =>
      cases sumValue lookup as with
      | error err => rfl
      | ok w =>
          apply congrArg Except.ok
          rw [signed_add, ← signed_xor]

theorem valueWith_sum (as : List (Addend (Expr R))) :
    (sum as).valueWith lookup = sumValue lookup as := by
  rw [valueWith, sumValue]
  cases addendValues lookup as <;> rfl

theorem valueWith_product (es : List (Expr R)) :
    (product es).valueWith lookup = productValue lookup es := by
  rw [valueWith, productValue]
  cases factorValues lookup es <;> rfl

/-- Spliced into a sum, an expression contributes its value under its sign. -/
theorem sumValue_asAddends (e : Expr R) (s : Bool) :
    sumValue lookup (e.asAddends s) = (e.valueWith lookup).map (signed s) := by
  -- what is no sum stays one entry, and a sum gives its own entries under the sign
  cases hsum : e.isSum with
  | false =>
      rw [asAddends_of_isSum_eq_false hsum, sumValue_cons, sumValue_nil]
      cases e.valueWith lookup with
      | error err => rfl
      | ok v => exact congrArg Except.ok (add_zero (signed s v))
  | true =>
      obtain ⟨as, rfl⟩ := exists_of_isSum hsum
      rw [valueWith_sum]
      exact sumValue_negateIf s as

/-- Spliced into a product, an expression contributes its value. -/
theorem productValue_asFactors (e : Expr R) :
    productValue lookup e.asFactors = e.valueWith lookup := by
  cases hproduct : e.isProduct with
  | false =>
      rw [asFactors_of_isProduct_eq_false hproduct, productValue_cons, productValue_nil]
      cases e.valueWith lookup with
      | error err => rfl
      | ok v => exact congrArg Except.ok (mul_one v)
  | true =>
      obtain ⟨es, rfl⟩ := exists_of_isProduct hproduct
      exact (valueWith_product es).symm

/-! ## Normal forms -/

mutual

/-- Normalizing keeps values over a ring, and errors too. -/
theorem valueWith_normalize (e : Expr R) : e.normalize.valueWith lookup = e.valueWith lookup := by
  -- recursion as in `normalize`; only sums and products change their shape
  match e with
  | number _ | constant _ | var _ => rfl
  | sum as => rw [normalize, valueWith_sum, valueWith_sum, sumValue_normalizeAddends as]
  | product es =>
    rw [normalize, valueWith_product, valueWith_product, productValue_normalizeFactors es]
  | quotient a b | power a b =>
    rw [normalize, valueWith, valueWith, valueWith_normalize a, valueWith_normalize b]
  | call f a => rw [normalize, valueWith, valueWith, valueWith_normalize a]

/-- Normalizing the entries of a sum keeps its value. -/
theorem sumValue_normalizeAddends (as : List (Addend (Expr R))) :
    sumValue lookup (normalizeAddends as) = sumValue lookup as := by
  match as with
  | [] => rfl
  | ⟨e, s⟩ :: as =>
    rw [normalizeAddends, sumValue_append, sumValue_asAddends, valueWith_normalize e,
      sumValue_normalizeAddends as, sumValue_cons]

/-- Normalizing the factors of a product keeps its value. -/
theorem productValue_normalizeFactors (es : List (Expr R)) :
    productValue lookup (normalizeFactors es) = productValue lookup es := by
  match es with
  | [] => rfl
  | e :: es =>
    rw [normalizeFactors, productValue_append, productValue_asFactors, valueWith_normalize e,
      productValue_normalizeFactors es, productValue_cons]

end

/-- Over a ring an expression and its normal form have the same value or the same error. -/
theorem evaluate_normalize (context : Context R) (e : Expr R) :
    evaluate context e.normalize = evaluate context e :=
  -- bindings are evaluated as they are, so only the expression itself changes
  valueWith_normalize e

/-! ## The normal form -/

/-- The normal form of an expression is normalized, and it is the expression itself if that is
normalized already. Leaves and calls keep their order, and neither nodes nor levels are added. When
numbers stand for elements of a ring, the normal form evaluates as the expression does, whatever the
bindings are. In every other arithmetic it fails as the expression does. -/
theorem normalize_canonical (e : Expr K) :
    e.normalize.Normalized ∧
    e.normalize.normalize = e.normalize ∧
    (e.Normalized → e.normalize = e) ∧
    e.normalize.landmarks = e.landmarks ∧
    e.normalize.nodeCount ≤ e.nodeCount ∧
    e.normalize.depth ≤ e.depth ∧
    (∀ (R : Type) [Ring R] [Scalar.Uninterpreted R] (exact : K → R) (context : Context R),
      evaluate context (e.normalize.mapNumbers exact) = evaluate context (e.mapNumbers exact)) ∧
    ∀ [Scalar K] (context : Context K),
      failure? (evaluate context e.normalize) = failure? (evaluate context e) := by
  refine ⟨normalized_normalize e, normalize_normalize e, Normalized.normalize_eq,
    landmarks_normalize e, nodeCount_normalize_le e, depth_normalize_le e, ?_, ?_⟩
  · intro R _ _ exact context
    rw [mapNumbers_normalize, evaluate_normalize]
  · intro _ context
    exact failure?_evaluate_normalize context e

/-- The difference `x - y` is its own normal form. -/
theorem normalize_canonical_difference :
    Normalized (sum [.plus (var "x"), .minus (var "y")] : Expr Int) ∧
      normalize (sum [.plus (var "x"), .minus (var "y")] : Expr Int) =
        sum [.plus (var "x"), .minus (var "y")] := by
  have hnormalized : Normalized (sum [.plus (var "x"), .minus (var "y")] : Expr Int) := by
    apply Normalized.sum
    · exact List.forall_mem_cons.mpr ⟨rfl, List.forall_mem_singleton.mpr rfl⟩
    · exact List.forall_mem_cons.mpr ⟨.var _, List.forall_mem_singleton.mpr (.var _)⟩
  exact ⟨hnormalized, (normalize_canonical _).2.2.1 hnormalized⟩

end OverRing

end Expr

end SymbolicCalculus
