import SymbolicCalculus.Expr.Normal

/-!
# Normalization piece by piece

Normalizing a list is normalizing its parts. The normal form of an expression is of the same kind as
the expression.
-/

namespace SymbolicCalculus.Expr

variable {K : Type}

/-- Normalizing addends is normalizing the parts of the list. -/
theorem normalizeAddends_append (as bs : List (Addend (Expr K))) :
    normalizeAddends (as ++ bs) = normalizeAddends as ++ normalizeAddends bs := by
  induction as with
  | nil => rfl
  | cons a as ih => simp [normalizeAddends, ih]

/-- Normalizing factors is normalizing the parts of the list. -/
theorem normalizeFactors_append (es fs : List (Expr K)) :
    normalizeFactors (es ++ fs) = normalizeFactors es ++ normalizeFactors fs := by
  induction es with
  | nil => rfl
  | cons e es ih => simp [normalizeFactors, ih]

@[simp] theorem expr_negateIf (a : Addend (Expr K)) (s : Bool) : (a.negateIf s).expr = a.expr := by
  cases s <;> rfl

theorem negateIf_eq (a : Addend (Expr K)) (s : Bool) :
    a.negateIf s = ⟨a.expr, a.subtract ^^ s⟩ := by
  obtain ⟨e, t⟩ := a
  cases s <;> cases t <;> rfl

theorem asAddends_false_sum (as : List (Addend (Expr K))) : (sum as).asAddends false = as :=
  List.map_id as

@[simp] theorem isNumber_normalize (e : Expr K) : e.normalize.isNumber = e.isNumber := by
  cases e <;> rfl

@[simp] theorem isSum_normalize (e : Expr K) : e.normalize.isSum = e.isSum := by
  cases e <;> rfl

@[simp] theorem isProduct_normalize (e : Expr K) : e.normalize.isProduct = e.isProduct := by
  cases e <;> rfl

/-! ## Entries -/

theorem exists_of_isSum {e : Expr K} (h : e.isSum = true) : ∃ as, e = sum as := by
  cases e <;> first | exact ⟨_, rfl⟩ | cases h

theorem exists_of_isProduct {e : Expr K} (h : e.isProduct = true) : ∃ es, e = product es := by
  cases e <;> first | exact ⟨_, rfl⟩ | cases h

/-- What is no sum is one addend. -/
theorem asAddends_of_isSum_eq_false {e : Expr K} (h : e.isSum = false) (s : Bool) :
    e.asAddends s = [⟨e, s⟩] := by
  cases e <;> first | rfl | cases h

/-- What is no product is one factor. -/
theorem asFactors_of_isProduct_eq_false {e : Expr K} (h : e.isProduct = false) :
    e.asFactors = [e] := by
  cases e <;> first | rfl | cases h

/-! ## Normal forms -/

/-- Splicing under two signs is splicing under one of them and flipping by the other. -/
theorem asAddends_xor (e : Expr K) (s t : Bool) :
    e.asAddends (t ^^ s) = (e.asAddends t).map (Addend.negateIf s) := by
  cases e with
  | sum as => cases s <;> cases t <;> simp [asAddends, Addend.negateIf, Addend.negate]
  | _ => cases s <;> cases t <;> rfl

/-- Flipping signs and normalizing do not interfere. -/
theorem normalizeAddends_negateIf (s : Bool) (as : List (Addend (Expr K))) :
    normalizeAddends (as.map (Addend.negateIf s)) =
      (normalizeAddends as).map (Addend.negateIf s) := by
  induction as with
  | nil => rfl
  | cons a as ih =>
      rw [List.map_cons, negateIf_eq, normalizeAddends, normalizeAddends, List.map_append, ih,
        asAddends_xor]

mutual

/-- Normalizing again changes nothing. -/
theorem normalize_normalize (e : Expr K) : e.normalize.normalize = e.normalize := by
  match e with
  | number _ | constant _ | var _ => rfl
  | sum as => exact congrArg sum (normalizeAddends_normalizeAddends as)
  | product es => exact congrArg product (normalizeFactors_normalizeFactors es)
  | quotient a b | power a b =>
    simp only [normalize, normalize_normalize a, normalize_normalize b]
  | call f a => simp only [normalize, normalize_normalize a]

/-- Normalizing addends again changes nothing. -/
theorem normalizeAddends_normalizeAddends (as : List (Addend (Expr K))) :
    normalizeAddends (normalizeAddends as) = normalizeAddends as := by
  match as with
  | [] => rfl
  | ⟨e, s⟩ :: as =>
    have he : normalizeAddends (e.normalize.asAddends s) = e.normalize.asAddends s := by
      have hnormal := normalize_normalize e
      generalize e.normalize = f at hnormal
      -- a sum among the terms has its own terms spliced in, and they are normalized already
      cases f with
      | sum bs =>
          have hbs : normalizeAddends bs = bs := Expr.sum.inj hnormal
          show normalizeAddends (bs.map (Addend.negateIf s)) = bs.map (Addend.negateIf s)
          rw [normalizeAddends_negateIf, hbs]
      | _ => simp [asAddends, normalizeAddends, hnormal]
    rw [normalizeAddends, normalizeAddends_append, he, normalizeAddends_normalizeAddends as]

/-- Normalizing factors again changes nothing. -/
theorem normalizeFactors_normalizeFactors (es : List (Expr K)) :
    normalizeFactors (normalizeFactors es) = normalizeFactors es := by
  match es with
  | [] => rfl
  | e :: es =>
    have he : normalizeFactors e.normalize.asFactors = e.normalize.asFactors := by
      have hnormal := normalize_normalize e
      generalize e.normalize = f at hnormal
      -- a product among the factors has its own factors spliced in
      cases f with
      | product fs => exact Expr.product.inj hnormal
      | _ => simp [asFactors, normalizeFactors, hnormal]
    rw [normalizeFactors, normalizeFactors_append, he, normalizeFactors_normalizeFactors es]

end

end SymbolicCalculus.Expr
