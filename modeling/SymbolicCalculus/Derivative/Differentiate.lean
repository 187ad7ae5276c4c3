import SymbolicCalculus.Derivative.Table
import SymbolicCalculus.Expr.Normal

/-!
# Differentiation

One rule for each kind of node gives the derivative of an expression with respect to a variable.
The result is not simplified beyond being normalized.

A product is differentiated as its first factor times the product of the others. A power of `e` is
differentiated as such, and any other power `b ^ u` as `e ^ (ln b * u)`, which covers constant,
variable and mixed bases and exponents with the one rule. A function without a derivative makes
the whole fail, even where the variable does not occur.
-/

namespace SymbolicCalculus

namespace Expr

variable {K : Type} [Scalar K]

/-- The derivative of a product `f * g`, where `df` and `dg` are the derivatives of `f` and `g`. -/
def productRule (f df g dg : Expr K) : Expr K :=
  sum [.plus (product [df, g]), .plus (product [f, dg])]

/-- The derivative of a quotient `f / g`. -/
def quotientRule (f df g dg : Expr K) : Expr K :=
  quotient (sum [.plus (product [df, g]), .minus (product [f, dg])]) g.squared

/-- The derivative of `e ^ u`. -/
def exponentialRule (u du : Expr K) : Expr K :=
  product [du, power (constant .e) u]

/-- The derivative of `e ^ (ln b * u)`. -/
def powerRule (b db u du : Expr K) : Expr K :=
  let lnb := call .ln b
  -- the derivative of `ln b` is `db / b`
  let dlnb := product [db, quotient (number 1) b]
  exponentialRule (product [lnb, u]) (productRule lnb dlnb u du)

/-- The expression is the base of the natural logarithm. -/
def isE : Expr K → Bool
  | constant .e => true
  | _ => false

mutual

/-- The derivative of an expression with respect to the variable `x`, not normalized. -/
def derivative (x : String) : Expr K → Except UnsupportedDerivative (Expr K)
  | number _ => .ok (number 0)
  | constant _ => .ok (number 0)
  | var name => .ok (number (if name == x then 1 else 0))
  | sum addends => do
    let derivatives ← addendDerivatives x addends
    return sum derivatives
  | product factors => productDerivative x factors
  | quotient f g => do
    let df ← derivative x f
    let dg ← derivative x g
    return quotientRule f df g dg
  | power b u =>
    if b.isE then do
      let du ← derivative x u
      return exponentialRule u du
    else do
      let db ← derivative x b
      let du ← derivative x u
      return powerRule b db u du
  | call f u => do
    -- the table comes first, so the outer of two functions is the one that is reported
    let outer ← f.derivative? u
    let du ← derivative x u
    return product [du, outer]

/-- The derivatives of the entries of a sum, with their signs. -/
def addendDerivatives (x : String) :
    List (Addend (Expr K)) → Except UnsupportedDerivative (List (Addend (Expr K)))
  | [] => .ok []
  | ⟨e, s⟩ :: as => do
    let de ← derivative x e
    let das ← addendDerivatives x as
    return ⟨de, s⟩ :: das

/-- The derivative of the product of a list of factors. -/
def productDerivative (x : String) : List (Expr K) → Except UnsupportedDerivative (Expr K)
  | [] => .ok (number 0)
  | [f] => derivative x f
  | f :: fs => do
    let df ← derivative x f
    let dfs ← productDerivative x fs
    -- every factor nests the result by two more levels
    return productRule f df (product fs).collapse dfs

end

end Expr

/-- The derivative of an expression with respect to the variable `x`, as a normalized tree. -/
def differentiate {K : Type} [Scalar K] (x : String) (e : Expr K) :
    Except UnsupportedDerivative (Expr K) := do
  let d ← e.derivative x
  return d.normalize

end SymbolicCalculus
