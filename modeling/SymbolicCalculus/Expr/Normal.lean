import SymbolicCalculus.Expr.Basic

/-!
# Normalization

`normalize` merges every sum that stands directly inside a sum into the outer one, and every product
directly inside a product likewise, at every level of the tree. The addends of a sum that is
subtracted enter the outer sum with their signs flipped. Nothing else changes.
-/

namespace SymbolicCalculus.Expr

variable {K : Type}

mutual

/-- Flattens nested sums and nested products, from the leaves up. -/
def normalize : Expr K → Expr K
  | number value => number value
  | constant c => constant c
  | var name => var name
  | sum addends => sum (normalizeAddends addends)
  | product factors => product (normalizeFactors factors)
  | quotient a b => quotient (normalize a) (normalize b)
  | power a b => power (normalize a) (normalize b)
  | call f a => call f (normalize a)

/-- The normalized addends of a sum, those of inner sums in place of the inner sum. -/
def normalizeAddends : List (Addend (Expr K)) → List (Addend (Expr K))
  | [] => []
  | ⟨e, s⟩ :: as => (normalize e).asAddends s ++ normalizeAddends as

/-- The normalized factors of a product, those of inner products in place of the inner product. -/
def normalizeFactors : List (Expr K) → List (Expr K)
  | [] => []
  | e :: es => (normalize e).asFactors ++ normalizeFactors es

end

end SymbolicCalculus.Expr
