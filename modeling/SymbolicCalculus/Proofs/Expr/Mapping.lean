import SymbolicCalculus.Proofs.Expr.Normal

/-!
# Changing the numbers of an expression

A function on scalars can be applied to all numbers of an expression, for instance one that gives
the exact value of each. This leaves everything else alone, so it may be done before an expression
is normalized as well as after it (`mapNumbers_normalize`).
-/

namespace SymbolicCalculus.Expr

variable {K L : Type}

mutual

/-- Changes the numbers of an expression. -/
def mapNumbers (f : K → L) : Expr K → Expr L
  | number v => number (f v)
  | constant c => constant c
  | var name => var name
  | sum addends => sum (mapAddends f addends)
  | product factors => product (mapFactors f factors)
  | quotient a b => quotient (mapNumbers f a) (mapNumbers f b)
  | power a b => power (mapNumbers f a) (mapNumbers f b)
  | call g a => call g (mapNumbers f a)

/-- Changes the numbers of the entries of a sum. -/
def mapAddends (f : K → L) : List (Addend (Expr K)) → List (Addend (Expr L))
  | [] => []
  | ⟨e, s⟩ :: as => ⟨mapNumbers f e, s⟩ :: mapAddends f as

/-- Changes the numbers of the entries of a product. -/
def mapFactors (f : K → L) : List (Expr K) → List (Expr L)
  | [] => []
  | e :: es => mapNumbers f e :: mapFactors f es

end

variable (f : K → L)

@[simp]
theorem length_mapAddends (as : List (Addend (Expr K))) :
    (mapAddends f as).length = as.length := by
  induction as with
  | nil => rfl
  | cons a as ih => rw [mapAddends, List.length_cons, ih, List.length_cons]

@[simp]
theorem length_mapFactors (es : List (Expr K)) : (mapFactors f es).length = es.length := by
  induction es with
  | nil => rfl
  | cons e es ih => rw [mapFactors, List.length_cons, ih, List.length_cons]

theorem mapAddends_append (as bs : List (Addend (Expr K))) :
    mapAddends f (as ++ bs) = mapAddends f as ++ mapAddends f bs := by
  induction as with
  | nil => rfl
  | cons a as ih => rw [List.cons_append, mapAddends, mapAddends, ih, List.cons_append]

theorem mapFactors_append (es fs : List (Expr K)) :
    mapFactors f (es ++ fs) = mapFactors f es ++ mapFactors f fs := by
  induction es with
  | nil => rfl
  | cons e es ih => rw [List.cons_append, mapFactors, mapFactors, ih, List.cons_append]

/-- Flipping signs and changing numbers do not interfere. -/
theorem mapAddends_negateIf (s : Bool) (as : List (Addend (Expr K))) :
    mapAddends f (as.map (Addend.negateIf s)) = (mapAddends f as).map (Addend.negateIf s) := by
  induction as with
  | nil => rfl
  | cons a as ih =>
      rw [List.map_cons, mapAddends, mapAddends, ih, List.map_cons]
      cases s <;> rfl

/-- Splicing into a sum and changing numbers do not interfere. -/
theorem mapAddends_asAddends (s : Bool) (e : Expr K) :
    mapAddends f (e.asAddends s) = (e.mapNumbers f).asAddends s := by
  cases e with
  | sum as => exact mapAddends_negateIf f s as
  | _ => rfl

theorem mapFactors_asFactors (e : Expr K) :
    mapFactors f e.asFactors = (e.mapNumbers f).asFactors := by
  cases e <;> rfl

mutual

/-- Numbers may be changed before an expression is normalized or after it. -/
theorem mapNumbers_normalize (e : Expr K) :
    e.normalize.mapNumbers f = (e.mapNumbers f).normalize := by
  -- recursion as in `normalize`, which never looks at a number
  match e with
  | number _ | constant _ | var _ => rfl
  | sum as => rw [normalize, mapNumbers, mapNumbers, normalize, mapAddends_normalizeAddends as]
  | product es =>
    rw [normalize, mapNumbers, mapNumbers, normalize, mapFactors_normalizeFactors es]
  | quotient a b | power a b =>
    rw [normalize, mapNumbers, mapNumbers, normalize, mapNumbers_normalize a,
      mapNumbers_normalize b]
  | call g a => rw [normalize, mapNumbers, mapNumbers, normalize, mapNumbers_normalize a]

/-- The same for the terms of a sum. -/
theorem mapAddends_normalizeAddends (as : List (Addend (Expr K))) :
    mapAddends f (normalizeAddends as) = normalizeAddends (mapAddends f as) := by
  match as with
  | [] => rfl
  | ⟨e, s⟩ :: as =>
    rw [normalizeAddends, mapAddends_append, mapAddends_asAddends, mapNumbers_normalize e,
      mapAddends_normalizeAddends as, mapAddends, normalizeAddends]

/-- The same for the factors of a product. -/
theorem mapFactors_normalizeFactors (es : List (Expr K)) :
    mapFactors f (normalizeFactors es) = normalizeFactors (mapFactors f es) := by
  match es with
  | [] => rfl
  | e :: es =>
    rw [normalizeFactors, mapFactors_append, mapFactors_asFactors, mapNumbers_normalize e,
      mapFactors_normalizeFactors es, mapFactors, normalizeFactors]

end

/-- Lists of fewer than two entries stand for the same if zero and one stay what they are. -/
theorem mapNumbers_collapse [Scalar K] [Scalar L] (hzero : f 0 = 0) (hone : f 1 = 1)
    (e : Expr K) : e.collapse.mapNumbers f = (e.mapNumbers f).collapse := by
  -- only the empty lists collapse to numbers; every other case is decided by the shape of the list
  match e with
  | sum [] => exact congrArg number hzero
  | product [] => exact congrArg number hone
  | sum [⟨_, false⟩] | sum (⟨_, false⟩ :: ⟨_, _⟩ :: _) => rfl
  | sum [⟨_, true⟩] | sum (⟨_, true⟩ :: ⟨_, _⟩ :: _) => rfl
  | product [_] | product (_ :: _ :: _) => rfl
  | number _ | constant _ | var _ | quotient _ _ | power _ _ | call _ _ => rfl

end SymbolicCalculus.Expr
