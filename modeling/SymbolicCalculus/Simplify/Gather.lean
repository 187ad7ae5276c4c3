import SymbolicCalculus.Simplify.Rule

/-!
# Gathering numbers

The numbers among the terms of a sum are added up into one that comes last, and those among the
factors of a product are multiplied into one that comes last. A number that makes no difference is
dropped, and a list that is left with one entry becomes that entry.

The rules for the neutral and the absorbing numbers follow: `a / 1 = a`, `a * 0 = 0`, `0 / a = 0`.
-/

namespace SymbolicCalculus

namespace Expr

variable {K : Type} [Scalar K]

/-- The number that an addend is, with the addend's sign. -/
def addendNumber? (a : Addend (Expr K)) : Option (Addend K) :=
  a.expr.asNumber?.map fun value => ⟨value, a.subtract⟩

/-- A number as an addend that is never negative: the sign moves to the addend. -/
def signedAddend (value : K) : Addend (Expr K) :=
  if Scalar.isNeg value then .minus (number (-value)) else .plus (number value)

/-- Rebuilds a sum of terms that are not numbers. One subtracted term has no sum to be subtracted
from, so it is multiplied by minus one instead. -/
def sumOfTerms : List (Addend (Expr K)) → Expr K
  | [⟨e, true⟩] => -e
  | terms => (sum terms).collapse

/-- A sum with its numbers gathered into one at its end. Zero is dropped, and an undefined total is
kept. -/
def gatherSum (addends : List (Addend (Expr K))) : Expr K :=
  let total := Addend.total (addends.filterMap addendNumber?)
  match addends.filter fun a => !a.expr.isNumber with
  | [] => number total
  | terms => sumOfTerms (if total == 0 then terms else terms ++ [signedAddend total])

/-- A product with its numbers gathered into one at its end. One is dropped, and an undefined factor
makes the whole product undefined. -/
def gatherProduct (factors : List (Expr K)) : Expr K :=
  let numbers := factors.filterMap asNumber?
  let value := Scalar.product numbers
  -- this is about the factors themselves, not about a product such as `inf * 0`
  if numbers.any Scalar.isNaN then number Scalar.nan
  else
    match factors.filter fun e => !e.isNumber with
    | [] => number value
    | rest => (product (if value == 1 then rest else rest ++ [number value])).collapse

end Expr

namespace Rule

variable {K : Type} [Scalar K]

/-- `a + 0 = a`, `0 - a = -1 * a`, `a + 2 + 3 = a + 5`. -/
def gatherSum : Rule K where
  step := .identity
  replace?
    | .sum addends => ifChanged (.sum addends) (Expr.gatherSum addends)
    | _ => none

/-- `1 * a = a`, `2 * a * 3 = a * 6`. -/
def gatherProduct : Rule K where
  step := .identity
  replace?
    | .product factors => ifChanged (.product factors) (Expr.gatherProduct factors)
    | _ => none

/-- `a / 1 = a`. -/
def divideByOne : Rule K where
  step := .identity
  replace?
    | .quotient a b => if b.isNumberEq 1 then some a else none
    | _ => none

/-- The rules for neutral numbers. -/
def identity : Rule K := firstOf .identity [gatherSum, gatherProduct, divideByOne]

/-- `a * 0 = 0`. -/
def multiplyByZero : Rule K where
  step := .absorb
  replace?
    | .product factors =>
      if factors.any fun e => e.isNumberEq 0 then some (.number 0) else none
    | _ => none

/-- `0 / a = 0`. -/
def divideZero : Rule K where
  step := .absorb
  replace?
    | .quotient a _ => if a.isNumberEq 0 then some (.number 0) else none
    | _ => none

/-- The rules for absorbing numbers. -/
def absorb : Rule K := firstOf .absorb [multiplyByZero, divideZero]

end Rule

end SymbolicCalculus
